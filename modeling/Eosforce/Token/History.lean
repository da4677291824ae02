import Eosforce.Lib.Txn
import Eosforce.Token.Run

/-!
# The history of a balance

* `Chain.txn`: the events of the contract are those of transactions over its actions, with the
  inline transfers among them.
* `Action.moves`: what an action brings to an account of one token, less what it takes.
* `exec_moves`: an action changes the balance by that, and takes only from an account that signs it.
* `balances_history`: the balance of an account is what the actions of the transactions that ended
  moved, and those of an account that signs nothing only grow.
-/

namespace Eosforce.Token

open Fallible Keyed Runs

variable {ctx : Ctx} {s s' : State} {owner : Name} {code : Nat}

/-! ## Transactions -/

/-- An action that succeeds. -/
def Called (s : State) (x : Ctx × Action) (s' : State) : Prop :=
  ∃ fx, exec x.1 s x.2 = .ok (s', fx)

/-- The context of an inline action: its sender's authority. -/
def asSender (env : Env) (sender : Name) : Env := { env with auths := [sender] }

/-- What an event is to the transaction. -/
def Chain.txn (c : Chain) : Event → TxnEvent (Ctx × Action)
  | .abort => .abort
  | .commit => .commit
  | .act ctx a => .call (ctx, a)
  | .inline ctx =>
    match c.pending.head? with
    | some (.transfer src dst quantity memo) =>
      .call ({ ctx with toEnv := asSender ctx.toEnv src }, .transfer src dst quantity memo)
    | _ => .abort

/-- The tables, without the inline transfers that wait. -/
def Chain.view (c : Chain) : Txn State := ⟨c.committed, c.tables⟩

theorem Chain.run_called {c c' : Chain} {a : Action} (h : c.run ctx a = .ok c') :
    TxnStep Called c.view (.call (ctx, a)) c'.view := by
  simp only [Chain.run, bind_eq_ok, pure_eq_ok, Prod.exists] at h
  obtain ⟨tables, fx, hexec, rfl⟩ := h
  exact .call ⟨fx, hexec⟩

/-- The next inline transfer runs with its sender's authority. -/
theorem Step.inline {c c' : Chain} (h : Step c (.inline ctx) c') :
    ∃ src dst q memo pending, c.pending = .transfer src dst q memo :: pending ∧
      c.txn (.inline ctx) = .call ({ ctx with auths := [src] }, .transfer src dst q memo) ∧
      { c with pending }.run { ctx with auths := [src] } (.transfer src dst q memo) = .ok c' := by
  simp only [Step, Chain.exec] at h
  split at h
  · rename_i src dst q memo pending hp
    exact ⟨src, dst, q, memo, pending, hp, by simp only [Chain.txn, hp, List.head?_cons, asSender], h⟩
  · cases h

theorem Step.txn {c c' : Chain} {e : Event} (h : Step c e c') :
    TxnStep Called c.view (c.txn e) c'.view := by
  cases e with
  | act ctx a => exact Chain.run_called h
  | inline ctx =>
    obtain ⟨src, dst, q, memo, pending, -, htxn, hrun⟩ := h.inline
    rw [htxn]
    exact Chain.run_called (c := { c with pending }) hrun
  | abort =>
    cases pure_eq_ok.mp h
    exact .abort
  | commit =>
    simp only [Step, Chain.exec, bind_eq_ok, check_eq_ok, pure_eq_ok, exists_const] at h
    obtain ⟨-, rfl⟩ := h
    exact .commit

/-- The actions of the transactions that ended, in order. -/
def committedCalls (tr : List (Chain × Event × Chain)) : List (Ctx × Action) :=
  (log (tr.map fun e => e.1.txn e.2.1)).committed

/-! ## Balances -/

/-- The units of a token that an account has. -/
def balanceOf (accounts : Scoped Name Nat Asset) (owner : Name) (code : Nat) : Int :=
  accounts.val (fun _ _ b => b.amount) owner code

theorem balanceOf_of_find {accounts : Scoped Name Nat Asset} {b : Asset}
    (h : accounts.find owner code = some b) : balanceOf accounts owner code = b.amount :=
  Scoped.val_of_find h

theorem balanceOf_of_none {accounts : Scoped Name Nat Asset}
    (h : accounts.find owner code = none) : balanceOf accounts owner code = 0 :=
  Scoped.val_of_none h

theorem balanceOf_put (accounts : Scoped Name Nat Asset) (k owner : Name) (n code : Nat)
    (b : Asset) : balanceOf (accounts.put k n b) owner code =
      if k = owner ∧ n = code then b.amount else balanceOf accounts owner code := by
  split
  · rename_i h
    obtain ⟨rfl, rfl⟩ := h
    exact balanceOf_of_find (Scoped.find_put_self ..)
  · rename_i h
    unfold balanceOf Scoped.val Table.val
    change ((accounts.put k n b).find owner code).elim 0 _ = _
    rw [Scoped.find_put_ne _ _ h]
    rfl

theorem balanceOf_erase (accounts : Scoped Name Nat Asset) (k owner : Name) (n code : Nat) :
    balanceOf (accounts.erase k n) owner code =
      if k = owner ∧ n = code then 0 else balanceOf accounts owner code := by
  split
  · rename_i h
    obtain ⟨rfl, rfl⟩ := h
    exact balanceOf_of_none (Scoped.find_erase_self ..)
  · rename_i h
    unfold balanceOf Scoped.val Table.val
    change ((accounts.erase k n).find owner code).elim 0 _ = _
    rw [Scoped.find_erase_ne _ h]
    rfl

variable {accounts accounts' : Scoped Name Nat Asset} {value : Asset} {k : Name}

theorem subBalance_balanceOf (h : subBalance accounts k value = .ok accounts') (owner : Name)
    (code : Nat) : balanceOf accounts' owner code = balanceOf accounts owner code -
      if k = owner ∧ value.symbol.code = code then value.amount else 0 := by
  obtain ⟨src, hfind, -, ⟨hall, rfl⟩ | ⟨-, balance, hsub, rfl⟩⟩ := subBalance_eq_ok.mp h
  · rw [balanceOf_erase]
    split
    · rename_i hk
      obtain ⟨rfl, rfl⟩ := hk
      rw [balanceOf_of_find hfind, hall, sub_self]
    · rw [sub_zero]
  · obtain ⟨-, -, rfl⟩ := Asset.sub_eq_ok.mp hsub
    rw [balanceOf_put]
    split
    · rename_i hk
      obtain ⟨rfl, rfl⟩ := hk
      rw [balanceOf_of_find hfind]
    · rw [sub_zero]

theorem addBalance_balanceOf {ramPayer : Name}
    (h : addBalance accounts k value ramPayer = .ok accounts') (owner : Name) (code : Nat) :
    balanceOf accounts' owner code = balanceOf accounts owner code +
      if k = owner ∧ value.symbol.code = code then value.amount else 0 := by
  obtain ⟨hfind, rfl⟩ | ⟨dst, balance, hfind, hadd, rfl⟩ := addBalance_eq_ok.mp h
  · rw [balanceOf_put]
    split
    · rename_i hk
      obtain ⟨rfl, rfl⟩ := hk
      rw [balanceOf_of_none hfind, zero_add]
    · rw [add_zero]
  · obtain ⟨-, -, rfl⟩ := Asset.add_eq_ok.mp hadd
    rw [balanceOf_put]
    split
    · rename_i hk
      obtain ⟨rfl, rfl⟩ := hk
      rw [balanceOf_of_find hfind]
    · rw [add_zero]

/-! ## What an action moves -/

/-- The account that issues a token. -/
def issuerOf (s : State) (code : Nat) : Option Name := (s.stat.find code).map (·.issuer)

/-- What an action brings to an account of a token that `issuer` issues, less what it takes. -/
def Action.moves (issuer : Option Name) (owner : Name) (code : Nat) : Action → Int
  | .transfer src dst q _ =>
    (if dst = owner ∧ q.symbol.code = code then q.amount else 0) -
      if src = owner ∧ q.symbol.code = code then q.amount else 0
  | .issue _ q _ => if issuer = some owner ∧ q.symbol.code = code then q.amount else 0
  | .retire q _ => if issuer = some owner ∧ q.symbol.code = code then -q.amount else 0
  | _ => 0

/-- The issuer of a token stays. -/
theorem Change.issuerOf {a : Action} {fx : List Effect} (h : Change ctx s a s' fx) {i : Name}
    (hi : issuerOf s code = some i) : issuerOf s' code = some i := by
  obtain ⟨st, hst, rfl⟩ := Option.map_eq_some_iff.mp hi
  unfold Token.issuerOf
  have hput : ∀ {n : Nat} {st' : CurrencyStats},
      (∀ st₀, s.stat.find n = some st₀ → st'.issuer = st₀.issuer) →
      ((s.stat.put n st').find code).map (·.issuer) = some st.issuer := by
    intro n st' hsame
    rw [Table.find_put]
    split
    · subst_vars
      rw [Option.map_some, hsame st hst]
    · rw [hst, Option.map_some]
  cases h with
  | create hauth hvalid hpos hcore hnew =>
    exact hput fun st₀ h₀ => by rw [hnew] at h₀; cases h₀
  | issue h₁ | retire h₁ => exact hput fun st₀ h₀ => by rw [h₁] at h₀; cases h₀; rfl
  | transfer | «open» | reopen | close => exact hi

/-- **Step lemma.** A successful action changes a balance by what it moves, where `issuer` is the
issuer of the token if there is one, and takes tokens only from an account that signs it. -/
theorem exec_moves {a : Action} {fx : List Effect} {issuer : Option Name} (owner : Name)
    (h : exec ctx s a = .ok (s', fx)) (hi : ∀ i, issuerOf s code = some i → issuer = some i) :
    balanceOf s'.accounts owner code =
        balanceOf s.accounts owner code + a.moves issuer owner code ∧
      (a.moves issuer owner code < 0 → owner ∈ ctx.auths) := by
  have hissuer : ∀ {q : Asset} {st : CurrencyStats}, s.stat.find q.symbol.code = some st →
      ((st.issuer = owner ∧ q.symbol.code = code) ↔
        (issuer = some owner ∧ q.symbol.code = code)) := by
    intro q st hst
    refine and_congr_left fun hq => ?_
    rw [hi st.issuer (by unfold Token.issuerOf; rw [← hq, hst]; rfl), Option.some.injEq]
  cases exec_change h with
  | create => exact ⟨(add_zero _).symm, fun hneg => absurd hneg (lt_irrefl 0)⟩
  | @issue dst quantity supply memo st accounts hst hauth hvalid hpos hsym hle hsupply hadd =>
    refine ⟨?_, fun hneg => ?_⟩
    · rw [addBalance_balanceOf hadd]
      simp only [Action.moves, hissuer hst]
    · simp only [Action.moves] at hneg
      split at hneg <;> omega
  | @retire quantity supply memo st accounts hst hauth hvalid hpos hsym hsupply hsub =>
    refine ⟨?_, fun hneg => ?_⟩
    · rw [subBalance_balanceOf hsub]
      simp only [Action.moves, hissuer hst]
      split <;> omega
    · simp only [Action.moves] at hneg
      split at hneg
      · rename_i howner
        rw [← ((hissuer hst).mpr howner).1]
        exact hauth
      · omega
  | @transfer src dst quantity memo st spent accounts hne hauth hst hvalid hpos hsym hsub hadd =>
    refine ⟨?_, fun hneg => ?_⟩
    · rw [addBalance_balanceOf hadd, subBalance_balanceOf hsub]
      simp only [Action.moves]
      omega
    · simp only [Action.moves] at hneg
      by_cases hsrc : src = owner ∧ quantity.symbol.code = code
      · rw [← hsrc.1]
        exact hauth
      · rw [if_neg hsrc] at hneg
        split at hneg <;> omega
  | «open» hauth hst hsym hnew =>
    refine ⟨?_, fun hneg => absurd hneg (lt_irrefl 0)⟩
    rw [balanceOf_put]
    simp only [Action.moves, add_zero]
    split
    · rename_i hk
      obtain ⟨rfl, rfl⟩ := hk
      rw [balanceOf_of_none hnew]
    · rfl
  | reopen => exact ⟨(add_zero _).symm, fun hneg => absurd hneg (lt_irrefl 0)⟩
  | close hauth hb hz =>
    refine ⟨?_, fun hneg => absurd hneg (lt_irrefl 0)⟩
    rw [balanceOf_erase]
    simp only [Action.moves, add_zero]
    split
    · rename_i hk
      obtain ⟨rfl, rfl⟩ := hk
      rw [balanceOf_of_find hb, hz]
    · rfl

/-! ## Runs -/

/-- A run of actions without transactions, from empty tables. The issuer of the last state is the
one that the actions on the token had. -/
theorem called_moves {l : List (State × (Ctx × Action) × State)} (h : Run Called {} l s)
    (owner : Name) (code : Nat) : ∀ issuer, (∀ i, issuerOf s code = some i → issuer = some i) →
    balanceOf s.accounts owner code =
        ((labels l).map fun x => x.2.moves issuer owner code).sum ∧
      ∀ x ∈ labels l, x.2.moves issuer owner code < 0 → owner ∈ x.1.auths := by
  induction h with
  | nil => exact fun _ _ => ⟨rfl, fun x hx => by cases hx⟩
  | @snoc l t u x _ hst ih =>
    intro issuer hu
    obtain ⟨fx, hx⟩ := hst
    have ht : ∀ i, issuerOf t code = some i → issuer = some i :=
      fun i hi => hu i ((exec_change hx).issuerOf hi)
    obtain ⟨hsum, hauth⟩ := ih issuer ht
    obtain ⟨hbal, hown⟩ := exec_moves owner hx ht
    rw [labels_append, show labels [(t, x, u)] = [x] from rfl]
    refine ⟨?_, fun y hy hneg => ?_⟩
    · rw [List.map_append, List.sum_append, List.map_singleton, List.sum_singleton, hbal, hsum]
    · rcases List.mem_append.mp hy with hy | hy
      · exact hauth y hy hneg
      · obtain rfl := List.mem_singleton.mp hy
        exact hown hneg

/-- The transfers that wait are those of issuers that signed. -/
theorem Step.unsigned {c c' : Chain} {e : Event} (h : Step c e c')
    (hp : ∀ dst q memo, .transfer owner dst q memo ∉ c.pending)
    (he : ∀ ctx a, e = .act ctx a → owner ∉ ctx.auths) :
    (∀ dst q memo, .transfer owner dst q memo ∉ c'.pending) ∧
      ∀ x, c.txn e = .call x → owner ∉ x.1.auths := by
  have hrun : ∀ {ctx : Ctx} {a : Action} {d : Chain}, owner ∉ ctx.auths →
      (∀ dst q memo, .transfer owner dst q memo ∉ d.pending) → d.run ctx a = .ok c' →
      ∀ dst q memo, .transfer owner dst q memo ∉ c'.pending := by
    intro ctx a d hauth hd hr dst q memo hmem
    simp only [Chain.run, bind_eq_ok, pure_eq_ok, Prod.exists] at hr
    obtain ⟨tables, fx, hexec, rfl⟩ := hr
    rcases List.mem_append.mp hmem with hmem | hmem
    · have hfx := (List.mem_filter.mp hmem).1
      cases exec_change hexec with
      | issue _ hissuer =>
        split at hfx
        · rw [List.mem_singleton] at hfx
          cases hfx
          exact hauth hissuer
        · cases hfx
      | transfer => simp at hfx
      | _ => cases hfx
    · exact hd dst q memo hmem
  cases e with
  | act ctx a =>
    have hauth := he ctx a rfl
    exact ⟨hrun hauth hp h, fun x hx => by cases hx; exact hauth⟩
  | inline ctx =>
    obtain ⟨src, dst, q, memo, pending, hpend, htxn, hinner⟩ := h.inline
    rw [hpend] at hp
    have hne : owner ∉ [src] := by
      intro hmem
      rw [List.mem_singleton] at hmem
      subst hmem
      exact hp dst q memo List.mem_cons_self
    refine ⟨hrun (d := { c with pending }) hne (fun dst q memo hmem => ?_) hinner, fun x hx => ?_⟩
    · exact hp dst q memo (List.mem_cons_of_mem _ hmem)
    · rw [htxn] at hx
      cases hx
      exact hne
  | abort =>
    cases pure_eq_ok.mp h
    exact ⟨fun _ _ _ hmem => (by cases hmem), fun x hx => by cases hx⟩
  | commit =>
    simp only [Step, Chain.exec, bind_eq_ok, check_eq_ok, pure_eq_ok, exists_const] at h
    obtain ⟨-, rfl⟩ := h
    exact ⟨hp, fun x hx => by cases hx⟩

/-- **History of a balance.** The tables that the transactions leave are those that the actions of the
transactions that ended lead to, made one after another with the inline transfers in their places; an
account's balance of a token is the sum of what they moved; and if the account signs no action, none
of them takes from it. -/
theorem balances_history {c : Chain} {tr : List (Chain × Event × Chain)} (h : Run Step {} tr c)
    (owner : Name) (code : Nat) :
    (∃ l, Run Called {} l c.committed ∧ labels l = committedCalls tr) ∧
    balanceOf c.committed.accounts owner code =
      ((committedCalls tr).map fun x => x.2.moves (issuerOf c.committed code) owner code).sum ∧
    ((∀ e ∈ tr, ∀ ctx a, e.2.1 = .act ctx a → owner ∉ ctx.auths) →
      ∀ x ∈ committedCalls tr, 0 ≤ x.2.moves (issuerOf c.committed code) owner code) := by
  have hsim := h.simulate Chain.view Chain.txn fun _ _ _ hs => hs.txn
  obtain ⟨⟨l, hl, hlog⟩, -⟩ := hsim.serial
  have hlabels : labels (tr.map fun e => (e.1.view, e.1.txn e.2.1, e.2.2.view)) =
      tr.map fun e => e.1.txn e.2.1 := by
    unfold labels
    rw [List.map_map]
    rfl
  rw [hlabels] at hlog
  obtain ⟨hsum, hauth⟩ := called_moves hl owner code (issuerOf c.committed code) fun _ hi => hi
  rw [hlog] at hsum hauth
  refine ⟨⟨l, hl, hlog⟩, hsum, fun hno x hx => ?_⟩
  by_contra hneg
  have hcall := mem_log (.inl hx)
  obtain ⟨e, he, htxn⟩ := List.mem_map.mp hcall
  have hquiet := ((h.restrict hno).inv
    (I := fun c => ∀ dst q memo, .transfer owner dst q memo ∉ c.pending)
    (fun _ _ _ hmem => by cases hmem) fun t a u ht hs => (hs.1.unsigned ht hs.2).1).2 e he
  exact (hquiet.2.1.1.unsigned hquiet.1 hquiet.2.1.2).2 x htxn (hauth x hx (not_le.mp hneg))

/-- The transfer of the issue has run. -/
def delivered : Chain where
  tables :=
    { stat := (∅ : Table Nat CurrencyStats).put abc.code ⟨⟨100, abc⟩, ⟨1000, abc⟩, 5⟩
      accounts := (((∅ : Scoped Name Nat Asset).put 5 abc.code ⟨100, abc⟩).erase 5 abc.code).put 6
        abc.code ⟨100, abc⟩ }

/-- Account 6, which signed nothing, has the 100 tokens that account 5 issued to it. -/
theorem balances_history_delivered :
    balanceOf delivered.tables.accounts 6 abc.code = 100 ∧
      ∀ x ∈ [(Ctx.of 5, Action.create 5 ⟨1000, abc⟩), (Ctx.of 5, .issue 6 ⟨100, abc⟩ ""),
        ({ Ctx.of 5 with auths := [5] }, .transfer 5 6 ⟨100, abc⟩ "")],
        0 ≤ x.2.moves (some 5) 6 abc.code := by
  have hcreate : Step {} (.act (Ctx.of 5) (.create 5 ⟨1000, abc⟩)) created := rfl
  have hissue : Step created (.act (Ctx.of 5) (.issue 6 ⟨100, abc⟩ "")) issuing := rfl
  have hinline : Step issuing (.inline (Ctx.of 5)) delivered := rfl
  have hcommit : Step delivered .commit { delivered with committed := delivered.tables } := rfl
  obtain ⟨-, hsum, hquiet⟩ := balances_history
    ((((Run.nil.snoc hcreate).snoc hissue).snoc hinline).snoc hcommit) 6 abc.code
  refine ⟨hsum, hquiet fun e he ctx a ha => ?_⟩
  simp only [List.nil_append, List.cons_append, List.mem_cons, List.not_mem_nil, or_false] at he
  rcases he with rfl | rfl | rfl | rfl <;> cases ha <;> decide

end Eosforce.Token
