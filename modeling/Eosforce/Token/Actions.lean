import Eosforce.Token.State

/-!
# Actions of `eosio.token` (`contracts/eosio.token/src/eosio.token.cpp`)

* `create`, `issue`, `retire`, `transfer`, `«open»`, `close`: the actions.
* `subBalance`, `addBalance`: the private functions, on the `accounts` table.
* `exec`: what an action does. An `issue` to another account than the issuer sends a transfer.
-/

namespace Eosforce.Token

open Fallible Keyed

/-- Action `create`. -/
def create (ctx : Ctx) (s : State) (issuer : Name) (maximumSupply : Asset) :
    Except String State := do
  requireAuth ctx.toEnv issuer
  let sym := maximumSupply.symbol
  check (sym.isValid = true) "invalid symbol name"
  check maximumSupply.IsValid "invalid supply"
  check (0 < maximumSupply.amount) "max-supply must be positive"
  check (sym.code ≠ coreSymbol.code) "not create EOS"
  check (s.stat.find sym.code = none) "token with symbol already exists"
  pure { s with stat := s.stat.put sym.code ⟨⟨0, sym⟩, maximumSupply, issuer⟩ }

/-- `sub_balance`: a balance that is spent whole is erased. -/
def subBalance (accounts : Scoped Name Nat Asset) (owner : Name) (value : Asset) :
    Except String (Scoped Name Nat Asset) := do
  let src ← fetch (accounts.find owner value.symbol.code) "no balance object found"
  check (value.amount ≤ src.amount) "overdrawn balance"
  if src.amount = value.amount then pure (accounts.erase owner value.symbol.code)
  else do
    let balance ← src.sub value
    pure (accounts.put owner value.symbol.code balance)

/-- `add_balance`. -/
def addBalance (accounts : Scoped Name Nat Asset) (owner : Name) (value : Asset)
    (_ramPayer : Name) : Except String (Scoped Name Nat Asset) :=
  match accounts.find owner value.symbol.code with
  | none => pure (accounts.put owner value.symbol.code value)
  | some dst => do
    let balance ← dst.add value
    pure (accounts.put owner value.symbol.code balance)

/-- Action `issue`. -/
def issue (ctx : Ctx) (s : State) (dst : Name) (quantity : Asset) (memo : String) :
    Except String (State × List Effect) := do
  let sym := quantity.symbol
  check (sym.isValid = true) "invalid symbol name"
  check (memo.utf8ByteSize ≤ 256) "memo has more than 256 bytes"
  let st ← fetch (s.stat.find sym.code)
    "token with symbol does not exist, create token before issue"
  requireAuth ctx.toEnv st.issuer
  check quantity.IsValid "invalid quantity"
  check (0 < quantity.amount) "must issue positive quantity"
  check (quantity.symbol = st.supply.symbol) "symbol precision mismatch"
  check (quantity.amount ≤ i64 (st.maxSupply.amount - st.supply.amount))
    "quantity exceeds available supply"
  let supply ← st.supply.add quantity
  let accounts ← addBalance s.accounts st.issuer quantity st.issuer
  pure (⟨s.stat.put sym.code { st with supply }, accounts⟩,
    if dst ≠ st.issuer then [.transfer st.issuer dst quantity memo] else [])

/-- Action `retire`. -/
def retire (ctx : Ctx) (s : State) (quantity : Asset) (memo : String) : Except String State := do
  let sym := quantity.symbol
  check (sym.isValid = true) "invalid symbol name"
  check (memo.utf8ByteSize ≤ 256) "memo has more than 256 bytes"
  let st ← fetch (s.stat.find sym.code) "token with symbol does not exist"
  requireAuth ctx.toEnv st.issuer
  check quantity.IsValid "invalid quantity"
  check (0 < quantity.amount) "must retire positive quantity"
  check (quantity.symbol = st.supply.symbol) "symbol precision mismatch"
  let supply ← st.supply.sub quantity
  let accounts ← subBalance s.accounts st.issuer quantity
  pure ⟨s.stat.put sym.code { st with supply }, accounts⟩

/-- Action `transfer`. -/
def transfer (ctx : Ctx) (s : State) (src dst : Name) (quantity : Asset) (memo : String) :
    Except String (State × List Effect) := do
  check (src ≠ dst) "cannot transfer to self"
  requireAuth ctx.toEnv src
  check (ctx.isAccount dst = true) "to account does not exist"
  let st ← fetch (s.stat.find quantity.symbol.code) "unable to find key"
  check quantity.IsValid "invalid quantity"
  check (0 < quantity.amount) "must transfer positive quantity"
  check (quantity.symbol = st.supply.symbol) "symbol precision mismatch"
  check (memo.utf8ByteSize ≤ 256) "memo has more than 256 bytes"
  let accounts ← subBalance s.accounts src quantity
  let accounts ← addBalance accounts dst quantity src
  pure ({ s with accounts }, [.requireRecipient src, .requireRecipient dst])

/-- Action `open`. -/
def «open» (ctx : Ctx) (s : State) (owner : Name) (symbol : Symbol) (ramPayer : Name) :
    Except String State := do
  requireAuth ctx.toEnv ramPayer
  let st ← fetch (s.stat.find symbol.code) "symbol does not exist"
  check (st.supply.symbol = symbol) "symbol precision mismatch"
  match s.accounts.find owner symbol.code with
  | none => do
    let balance ← Asset.make 0 symbol
    pure { s with accounts := s.accounts.put owner symbol.code balance }
  | some _ => pure s

/-- Action `close`. -/
def close (ctx : Ctx) (s : State) (owner : Name) (symbol : Symbol) : Except String State := do
  requireAuth ctx.toEnv owner
  let balance ← fetch (s.accounts.find owner symbol.code)
    "Balance row already deleted or never existed. Action won't have any effect."
  check (balance.amount = 0) "Cannot close because the balance is not zero."
  pure { s with accounts := s.accounts.erase owner symbol.code }

/-! ## The contract -/

/-- The actions of the contract with their arguments. -/
inductive Action where
  | create (issuer : Name) (maximumSupply : Asset)
  | issue (dst : Name) (quantity : Asset) (memo : String)
  | retire (quantity : Asset) (memo : String)
  | transfer (src dst : Name) (quantity : Asset) (memo : String)
  | «open» (owner : Name) (symbol : Symbol) (ramPayer : Name)
  | close (owner : Name) (symbol : Symbol)
  deriving DecidableEq

/-- What an action does. -/
def exec (ctx : Ctx) (s : State) : Action → Except String (State × List Effect)
  | .create issuer maximumSupply => silent (create ctx s issuer maximumSupply)
  | .issue dst quantity memo => issue ctx s dst quantity memo
  | .retire quantity memo => silent (retire ctx s quantity memo)
  | .transfer src dst quantity memo => transfer ctx s src dst quantity memo
  | .«open» owner symbol ramPayer => silent («open» ctx s owner symbol ramPayer)
  | .close owner symbol => silent (close ctx s owner symbol)

end Eosforce.Token
