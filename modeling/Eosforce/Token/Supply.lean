import Eosforce.Token.Actions

/-!
# The supply and the balances of a token

* `held`: the sum of the balances of a symbol code. `subBalance_held` and `addBalance_held` say what
  the two private functions do to it.
* `Change`, `exec_change`: what an action does to the tables.
* `Backed`: the supply of each token is the sum of its balances, and lies below the maximum; each
  balance is one of a token. `Change.backed`: every action keeps it.
-/

namespace Eosforce.Token

open Fallible Keyed

variable {ctx : Ctx} {s s' : State} {accounts accounts' : Scoped Name Nat Asset} {owner : Name}
  {value : Asset}

/-! ## Balances -/

/-- The sum of the balances of a symbol code. -/
def held (accounts : Scoped Name Nat Asset) (code : Nat) : Int := accounts.keySum Asset.amount code

/-- No balance is below zero, and each has the symbol of its code. -/
def Balances (sym : Nat → Option Symbol) (accounts : Scoped Name Nat Asset) : Prop :=
  accounts.All fun _ code b => 0 ≤ b.amount ∧ sym code = some b.symbol

theorem subBalance_eq_ok : subBalance accounts owner value = .ok accounts' ↔
    ∃ src, accounts.find owner value.symbol.code = some src ∧ value.amount ≤ src.amount ∧
      (src.amount = value.amount ∧ accounts' = accounts.erase owner value.symbol.code ∨
        src.amount ≠ value.amount ∧ ∃ balance, src.sub value = .ok balance ∧
          accounts' = accounts.put owner value.symbol.code balance) := by
  simp only [subBalance, bind_eq_ok, fetch_eq_ok, check_eq_ok, ite_eq_ok, pure_eq_ok, exists_const,
    eq_comm (b := accounts')]

theorem addBalance_eq_ok {ramPayer : Name} :
    addBalance accounts owner value ramPayer = .ok accounts' ↔
      accounts.find owner value.symbol.code = none ∧
        accounts' = accounts.put owner value.symbol.code value ∨
      ∃ dst balance, accounts.find owner value.symbol.code = some dst ∧
        dst.add value = .ok balance ∧
        accounts' = accounts.put owner value.symbol.code balance := by
  unfold addBalance
  cases accounts.find owner value.symbol.code with
  | none => simp only [pure_eq_ok, eq_comm (b := accounts'), true_and, reduceCtorEq, false_and,
      exists_false, or_false]
  | some dst => simp only [bind_eq_ok, pure_eq_ok, eq_comm (b := accounts'), Option.some.injEq,
      reduceCtorEq, false_and, false_or, exists_and_left, exists_eq_left']

theorem subBalance_held (h : subBalance accounts owner value = .ok accounts') (code : Nat) :
    held accounts' code =
      held accounts code - if value.symbol.code = code then value.amount else 0 := by
  obtain ⟨src, hfind, -, ⟨hall, rfl⟩ | ⟨-, balance, hsub, rfl⟩⟩ := subBalance_eq_ok.mp h
  · unfold held
    rw [Scoped.keySum_erase, hfind, Option.elim_some, hall]
  · obtain ⟨-, -, rfl⟩ := Asset.sub_eq_ok.mp hsub
    unfold held
    rw [Scoped.keySum_put, hfind, Option.elim_some]
    simp only
    split <;> omega

theorem addBalance_held {ramPayer : Name}
    (h : addBalance accounts owner value ramPayer = .ok accounts') (code : Nat) :
    held accounts' code =
      held accounts code + if value.symbol.code = code then value.amount else 0 := by
  obtain ⟨hfind, rfl⟩ | ⟨dst, balance, hfind, hadd, rfl⟩ := addBalance_eq_ok.mp h
  · unfold held
    rw [Scoped.keySum_put, hfind, Option.elim_none, sub_zero]
  · obtain ⟨-, -, rfl⟩ := Asset.add_eq_ok.mp hadd
    unfold held
    rw [Scoped.keySum_put, hfind, Option.elim_some]
    simp only
    split <;> omega

namespace Balances

variable {sym sym' : Nat → Option Symbol}

theorem mono (h : Balances sym accounts) (hs : ∀ code x, sym code = some x → sym' code = some x) :
    Balances sym' accounts := fun owner code b hb =>
  ⟨(h owner code b hb).1, hs code _ (h owner code b hb).2⟩

/-- A symbol code without a token has no balance. -/
theorem held_of_none (h : Balances sym accounts) {code : Nat} (hs : sym code = none) :
    held accounts code = 0 := by
  refine Scoped.keySum_zero _ fun owner => Option.eq_none_iff_forall_ne_some.mpr fun b hb => ?_
  have hsome := (h owner code b hb).2
  rw [hs] at hsome
  cases hsome

theorem held_nonneg (h : Balances sym accounts) (code : Nat) : 0 ≤ held accounts code :=
  Scoped.keySum_nonneg fun owner b hb => (h owner code b hb).1

theorem erase (h : Balances sym accounts) (owner : Name) (code : Nat) :
    Balances sym (accounts.erase owner code) := h.setScope ((h.scope owner).erase code)

theorem subBalance (h : Balances sym accounts)
    (hsub : Token.subBalance accounts owner value = .ok accounts') : Balances sym accounts' := by
  obtain ⟨src, hfind, hle, ⟨-, rfl⟩ | ⟨-, balance, hb, rfl⟩⟩ := subBalance_eq_ok.mp hsub
  · exact h.erase owner _
  · obtain ⟨-, -, rfl⟩ := Asset.sub_eq_ok.mp hb
    refine h.put ⟨?_, (h owner _ src hfind).2⟩
    simp only
    omega

theorem addBalance {ramPayer : Name} (h : Balances sym accounts) (hpos : 0 ≤ value.amount)
    (hsym : sym value.symbol.code = some value.symbol)
    (hadd : Token.addBalance accounts owner value ramPayer = .ok accounts') :
    Balances sym accounts' := by
  obtain ⟨-, rfl⟩ | ⟨dst, balance, hfind, hb, rfl⟩ := addBalance_eq_ok.mp hadd
  · exact h.put ⟨hpos, hsym⟩
  · obtain ⟨-, -, rfl⟩ := Asset.add_eq_ok.mp hb
    have hdst := h owner _ dst hfind
    refine h.put ⟨?_, hdst.2⟩
    simp only
    omega

end Balances

/-! ## One action -/

/-- What an action does to the tables, and what it sends. -/
inductive Change (ctx : Ctx) (s : State) : Action → State → List Effect → Prop
  | create {issuer : Name} {maximumSupply : Asset} (hauth : issuer ∈ ctx.auths)
    (hvalid : maximumSupply.IsValid) (hpos : 0 < maximumSupply.amount)
    (hcore : maximumSupply.symbol.code ≠ coreSymbol.code)
    (hnew : s.stat.find maximumSupply.symbol.code = none) :
    Change ctx s (.create issuer maximumSupply)
      { s with
        stat := s.stat.put maximumSupply.symbol.code
          ⟨⟨0, maximumSupply.symbol⟩, maximumSupply, issuer⟩ } []
  | issue {dst : Name} {quantity supply : Asset} {memo : String} {st : CurrencyStats}
    {accounts : Scoped Name Nat Asset} (hst : s.stat.find quantity.symbol.code = some st)
    (hauth : st.issuer ∈ ctx.auths) (hvalid : quantity.IsValid) (hpos : 0 < quantity.amount)
    (hsym : quantity.symbol = st.supply.symbol)
    (hle : quantity.amount ≤ i64 (st.maxSupply.amount - st.supply.amount))
    (hsupply : st.supply.add quantity = .ok supply)
    (hadd : addBalance s.accounts st.issuer quantity st.issuer = .ok accounts) :
    Change ctx s (.issue dst quantity memo)
      ⟨s.stat.put quantity.symbol.code { st with supply }, accounts⟩
      (if dst ≠ st.issuer then [.transfer st.issuer dst quantity memo] else [])
  | retire {quantity supply : Asset} {memo : String} {st : CurrencyStats}
    {accounts : Scoped Name Nat Asset} (hst : s.stat.find quantity.symbol.code = some st)
    (hauth : st.issuer ∈ ctx.auths) (hvalid : quantity.IsValid) (hpos : 0 < quantity.amount)
    (hsym : quantity.symbol = st.supply.symbol) (hsupply : st.supply.sub quantity = .ok supply)
    (hsub : subBalance s.accounts st.issuer quantity = .ok accounts) :
    Change ctx s (.retire quantity memo)
      ⟨s.stat.put quantity.symbol.code { st with supply }, accounts⟩ []
  | transfer {src dst : Name} {quantity : Asset} {memo : String} {st : CurrencyStats}
    {spent accounts : Scoped Name Nat Asset} (hne : src ≠ dst) (hauth : src ∈ ctx.auths)
    (hst : s.stat.find quantity.symbol.code = some st) (hvalid : quantity.IsValid)
    (hpos : 0 < quantity.amount) (hsym : quantity.symbol = st.supply.symbol)
    (hsub : subBalance s.accounts src quantity = .ok spent)
    (hadd : addBalance spent dst quantity src = .ok accounts) :
    Change ctx s (.transfer src dst quantity memo) { s with accounts }
      [.requireRecipient src, .requireRecipient dst]
  | «open» {owner ramPayer : Name} {symbol : Symbol} {st : CurrencyStats}
    (hauth : ramPayer ∈ ctx.auths) (hst : s.stat.find symbol.code = some st)
    (hsym : st.supply.symbol = symbol) (hnew : s.accounts.find owner symbol.code = none) :
    Change ctx s (.«open» owner symbol ramPayer)
      { s with accounts := s.accounts.put owner symbol.code ⟨0, symbol⟩ } []
  /-- The balance is there already. -/
  | reopen {owner ramPayer : Name} {symbol : Symbol} (hauth : ramPayer ∈ ctx.auths) :
    Change ctx s (.«open» owner symbol ramPayer) s []
  | close {owner : Name} {symbol : Symbol} {b : Asset} (hauth : owner ∈ ctx.auths)
    (hb : s.accounts.find owner symbol.code = some b) (hz : b.amount = 0) :
    Change ctx s (.close owner symbol) { s with accounts := s.accounts.erase owner symbol.code } []

theorem exec_change {a : Action} {fx : List Effect} (h : exec ctx s a = .ok (s', fx)) :
    Change ctx s a s' fx := by
  cases a <;> simp only [exec, silent_eq_ok] at h
  case create issuer maximumSupply =>
    simp only [create, requireAuth, bind_eq_ok, check_eq_ok, pure_eq_ok, exists_const] at h
    obtain ⟨⟨hauth, -, hvalid, hpos, hcore, hnew, rfl⟩, rfl⟩ := h
    exact .create hauth hvalid hpos hcore hnew
  case issue dst quantity memo =>
    simp only [issue, requireAuth, bind_eq_ok, check_eq_ok, fetch_eq_ok, pure_eq_ok, exists_const,
      Prod.mk.injEq] at h
    obtain ⟨-, -, st, hst, hauth, hvalid, hpos, hsym, hle, supply, hsupply, accounts, hadd, rfl,
      rfl⟩ := h
    exact .issue hst hauth hvalid hpos hsym hle hsupply hadd
  case retire quantity memo =>
    simp only [retire, requireAuth, bind_eq_ok, check_eq_ok, fetch_eq_ok, pure_eq_ok,
      exists_const] at h
    obtain ⟨⟨-, -, st, hst, hauth, hvalid, hpos, hsym, supply, hsupply, accounts, hsub, rfl⟩,
      rfl⟩ := h
    exact .retire hst hauth hvalid hpos hsym hsupply hsub
  case transfer src dst quantity memo =>
    simp only [transfer, requireAuth, bind_eq_ok, check_eq_ok, fetch_eq_ok, pure_eq_ok,
      exists_const, Prod.mk.injEq] at h
    obtain ⟨hne, hauth, -, st, hst, hvalid, hpos, hsym, -, spent, hsub, accounts, hadd, rfl,
      rfl⟩ := h
    exact .transfer hne hauth hst hvalid hpos hsym hsub hadd
  case «open» owner symbol ramPayer =>
    simp only [«open», requireAuth, bind_eq_ok, check_eq_ok, fetch_eq_ok, exists_const] at h
    obtain ⟨⟨hauth, st, hst, hsym, h⟩, rfl⟩ := h
    split at h
    · simp only [bind_eq_ok, pure_eq_ok, Asset.make_eq_ok] at h
      obtain ⟨_, ⟨-, -, rfl⟩, rfl⟩ := h
      exact .«open» hauth hst hsym ‹_›
    · cases pure_eq_ok.mp h
      exact .reopen hauth
  case close owner symbol =>
    simp only [close, requireAuth, bind_eq_ok, check_eq_ok, fetch_eq_ok, pure_eq_ok,
      exists_const] at h
    obtain ⟨⟨hauth, b, hb, hz, rfl⟩, rfl⟩ := h
    exact .close hauth hb hz

/-! ## The invariant -/

/-- The symbol of the token of a code. -/
def symbolOf (stat : Table Nat CurrencyStats) (code : Nat) : Option Symbol :=
  (stat.find code).map fun st => st.supply.symbol

/-- A `stat` row of a code, with `amount` tokens held. -/
structure CurrencyStats.Backed (st : CurrencyStats) (code : Nat) (amount : Int) : Prop where
  code : st.supply.symbol.code = code
  maxSymbol : st.maxSupply.symbol = st.supply.symbol
  supply : amount = st.supply.amount
  le_max : st.supply.amount ≤ st.maxSupply.amount
  max_le : st.maxSupply.amount ≤ Asset.maxAmount

/-- The supply of each token is held, and every balance is one of a token. -/
structure Backed (s : State) : Prop where
  stat : s.stat.All fun code st => st.Backed code (held s.accounts code)
  balances : Balances (symbolOf s.stat) s.accounts

theorem symbolOf_put_same {stat : Table Nat CurrencyStats} {code : Nat} {st st' : CurrencyStats}
    (hst : stat.find code = some st) (hs : st'.supply.symbol = st.supply.symbol) :
    symbolOf (stat.put code st') = symbolOf stat := by
  funext code'
  unfold symbolOf
  rw [Table.find_put]
  split
  · subst_vars
    rw [hst, Option.map_some, Option.map_some, hs]
  · rfl

theorem symbolOf_of_find {stat : Table Nat CurrencyStats} {code : Nat} {st : CurrencyStats}
    (hst : stat.find code = some st) : symbolOf stat code = some st.supply.symbol := by
  unfold symbolOf
  rw [hst, Option.map_some]

namespace Backed

/-- The balances change, but not what is held of any token. -/
theorem of_held (h : Backed s) (hb : Balances (symbolOf s.stat) accounts)
    (hheld : ∀ code, held accounts code = held s.accounts code) : Backed { s with accounts } where
  stat code st hst := by
    simp only [hheld]
    exact h.stat code st hst
  balances := hb

/-- The supply of a token changes by as much as what is held of it. -/
theorem of_supply (h : Backed s) {code : Nat} {st : CurrencyStats} {supply : Asset}
    (hst : s.stat.find code = some st) (hsym : supply.symbol = st.supply.symbol)
    (hmax : supply.amount ≤ st.maxSupply.amount) (hb : Balances (symbolOf s.stat) accounts)
    (hheld : ∀ code', held accounts code' =
      held s.accounts code' + if code = code' then supply.amount - st.supply.amount else 0) :
    Backed ⟨s.stat.put code { st with supply }, accounts⟩ where
  stat code' st' hst' := by
    have hstat := h.stat code st hst
    simp only [Table.find_put] at hst'
    simp only [hheld]
    split at hst'
    · subst_vars
      cases hst'
      have hsupply := hstat.supply
      exact ⟨hsym ▸ hstat.code, hstat.maxSymbol.trans hsym.symm, by simp only [if_pos]; omega, hmax,
        hstat.max_le⟩
    · rename_i hne
      rw [if_neg hne, add_zero]
      exact h.stat code' st' hst'
  balances := by
    rw [symbolOf_put_same hst hsym]
    exact hb

/-- A new token has no balance. -/
theorem create (h : Backed s) {maximumSupply : Asset} {issuer : Name}
    (hvalid : maximumSupply.IsValid) (hpos : 0 < maximumSupply.amount)
    (hnew : s.stat.find maximumSupply.symbol.code = none) :
    Backed { s with
      stat := s.stat.put maximumSupply.symbol.code
        ⟨⟨0, maximumSupply.symbol⟩, maximumSupply, issuer⟩ } where
  stat := by
    refine h.stat.put ⟨rfl, rfl, ?_, hpos.le, hvalid.1.2⟩
    apply h.balances.held_of_none
    unfold symbolOf
    rw [hnew, Option.map_none]
  balances := by
    apply h.balances.mono
    intro code x hx
    unfold symbolOf at hx ⊢
    rw [Table.find_put, if_neg]
    · exact hx
    · rintro rfl
      rw [hnew] at hx
      cases hx

/-- The supply of a token is not negative. -/
theorem supply_nonneg (h : Backed s) {code : Nat} {st : CurrencyStats}
    (hst : s.stat.find code = some st) : 0 ≤ st.supply.amount := by
  rw [← (h.stat code st hst).supply]
  exact h.balances.held_nonneg code

end Backed

/-- **Step lemma.** -/
theorem Change.backed {a : Action} {fx : List Effect} (h : Change ctx s a s' fx) (hs : Backed s) :
    Backed s' := by
  cases h with
  | create hauth hvalid hpos hcore hnew => exact hs.create hvalid hpos hnew
  | @issue dst quantity supply memo st accounts hst hauth hvalid hpos hsym hle hsupply hadd =>
    obtain ⟨-, -, rfl⟩ := Asset.add_eq_ok.mp hsupply
    have hstat := hs.stat _ st hst
    have hnonneg := hs.supply_nonneg hst
    have hquantity : symbolOf s.stat quantity.symbol.code = some quantity.symbol := by
      rw [symbolOf_of_find hst, hsym]
    have hmax : st.supply.amount + quantity.amount ≤ st.maxSupply.amount := by
      -- the `int64_t` difference is exact, as both amounts are of assets
      have hle_max := hstat.le_max
      have hmax_le := hstat.max_le
      unfold Asset.maxAmount at hmax_le
      rw [i64_of_range (by omega) (by omega)] at hle
      omega
    refine hs.of_supply hst rfl hmax (hs.balances.addBalance hpos.le hquantity hadd) fun code => ?_
    rw [addBalance_held hadd, add_sub_cancel_left]
  | @retire quantity supply memo st accounts hst hauth hvalid hpos hsym hsupply hsub =>
    obtain ⟨-, -, rfl⟩ := Asset.sub_eq_ok.mp hsupply
    have hle_max := (hs.stat _ st hst).le_max
    refine hs.of_supply hst rfl ?_ (hs.balances.subBalance hsub) fun code => ?_
    · simp only
      omega
    · rw [subBalance_held hsub]
      simp only
      split <;> omega
  | @transfer src dst quantity memo st spent accounts hne hauth hst hvalid hpos hsym hsub hadd =>
    have hquantity : symbolOf s.stat quantity.symbol.code = some quantity.symbol := by
      rw [symbolOf_of_find hst, hsym]
    have hbal := (hs.balances.subBalance hsub).addBalance hpos.le hquantity hadd
    refine hs.of_held hbal fun code => ?_
    rw [addBalance_held hadd, subBalance_held hsub, sub_add_cancel]
  | @«open» owner ramPayer symbol st hauth hst hsym hnew =>
    refine hs.of_held (hs.balances.put ⟨le_refl _, ?_⟩) fun code => ?_
    · rw [symbolOf_of_find hst, hsym]
    · unfold held
      rw [Scoped.keySum_put, hnew]
      simp
  | reopen => exact hs
  | @close owner symbol b hauth hb hz =>
    refine hs.of_held (hs.balances.erase owner _) fun code => ?_
    unfold held
    rw [Scoped.keySum_erase, hb, Option.elim_some, hz, ite_self, sub_zero]

end Eosforce.Token
