import Eosforce.Freeze.State
import Eosforce.Pledge.State

/-!
# What a contract gets from the chain

* `Env`: what an action reads besides its arguments and its own tables: the authorities of the
  action, the block, the host functions of the chain (`get_active_producers`,
  `get_num_config_on_chain`, `is_func_open`) and the tables of other contracts.
* `Effect`: what an action asks the chain to do: the inline actions it sends, and the privileged
  calls.
* `requireAuth`, `get`: the host checks. RAM billing is not modelled.
-/

namespace Eosforce

open Fallible Keyed

/-- `eosio::producer_key`. -/
structure ProducerKey where
  producerName : Name
  blockSigningKey : String
  deriving DecidableEq

/-- The context of an action. -/
structure Env where
  /-- The accounts whose authority the action carries. -/
  auths : List Name := []
  /-- `current_block_num()`, a `uint32_t`. -/
  currentBlockNum : Nat
  currentBlockNum_lt : currentBlockNum < 2 ^ 32
  /-- `time_point_sec( current_time_point() )`, in seconds. -/
  currentTimeSec : Nat := 0
  activeProducers : List Name := []
  numConfigOnChain : Name → Int := fun _ => -1
  isFuncOpen : Name → Bool := fun _ => false
  /-- The tables of `eosio.pledge`. -/
  pledges : Scoped Name Name Pledge.PledgeInfo := ∅
  /-- The tables of `eosio.freeze`. -/
  freeze : Freeze.State := {}
  /-- What a read past the end of the reserved `vote_schedule` buffer gives. -/
  reserved : Nat → Int := fun _ => 0

/-- The context of an action of an account at a block. -/
def Env.of (account : Name) (block : Nat) : Env :=
  { auths := [account], currentBlockNum := u32 block, currentBlockNum_lt := u32_lt block }

/-- What an action asks the chain to do. -/
inductive Effect where
  | setProposedProducers (producers : List ProducerKey)
  | setNeedCheckRamLimit (account : Name)
  | requireRecipient (account : Name)
  /-- Inline `transfer` of the system contract; `eosio.token` sends its own. -/
  | transfer (src dst : Name) (quantity : Asset) (memo : String)
  /-- Inline `deduction` of the pledge contract. -/
  | deduction (pledgeName debitee : Name) (quantity : Asset) (memo : String)
  /-- Inline `dealreward` of the pledge contract. -/
  | dealreward (pledgeName pledger : Name) (rewarder : List Name) (memo : String)
  deriving DecidableEq

/-- The result of an action that asks the chain for nothing. -/
def silent {σ : Type} (r : Except String σ) : Except String (σ × List Effect) := do
  let s ← r
  pure (s, [])

theorem silent_eq_ok {σ : Type} {r : Except String σ} {s : σ} {fx : List Effect} :
    silent r = .ok (s, fx) ↔ r = .ok s ∧ fx = [] := by
  simp only [silent, bind_eq_ok, pure_eq_ok, Prod.mk.injEq]
  constructor
  · rintro ⟨t, h, rfl, rfl⟩; exact ⟨h, rfl⟩
  · rintro ⟨h, rfl⟩; exact ⟨s, h, rfl, rfl⟩

/-- `require_auth`. -/
def requireAuth (env : Env) (account : Name) : Except String Unit :=
  check (account ∈ env.auths) "missing required authority"

/-- Whether the account may not move its tokens. -/
def Env.freezed (env : Env) (account : Name) : Bool :=
  isAccountFreezed env.freeze account env.currentBlockNum

/-- The `block.out` pledge of an account. -/
def Env.blockOutPledge (env : Env) (account : Name) : Option Pledge.PledgeInfo :=
  env.pledges.find account Eosforce.blockOutPledge

/-! ## Tables of the chain -/

section Tables

variable {κ ρ : Type} [LinearOrder κ]

/-- `multi_index::emplace`: the chain refuses a second row of one primary key. -/
def emplace (t : Table κ ρ) (k : κ) (r : ρ) : Except String (Table κ ρ) := do
  check ((t.find k).isNone = true)
    "could not insert object, most likely a uniqueness constraint was violated"
  pure (t.put k r)

theorem emplace_eq_ok {t t' : Table κ ρ} {k : κ} {r : ρ} :
    emplace t k r = .ok t' ↔ t.find k = none ∧ t' = t.put k r := by
  simp only [emplace, bind_eq_ok, check_eq_ok, pure_eq_ok, exists_const, Option.isNone_iff_eq_none,
    eq_comm (b := t')]

theorem emplace_eq_error {t : Table κ ρ} {k : κ} {r : ρ} {e : String} :
    emplace t k r = .error e ↔ (t.find k).isSome = true ∧
      "could not insert object, most likely a uniqueness constraint was violated" = e := by
  simp only [emplace, bind_eq_error, check_eq_error, pure_eq_error, and_false, exists_false,
    or_false]
  cases t.find k <;> simp

/-- `multi_index::available_primary_key`: one past the largest key. -/
def availablePrimaryKey (t : Table Nat ρ) : Except String Nat :=
  match t.last with
  | none => .ok 0
  | some (k, _) => do
    check (k + 1 < 2 ^ 64 - 2) "next primary key in table is at autoincrement limit"
    pure (k + 1)

/-- The available key is above every key of the table. -/
theorem lt_availablePrimaryKey {t : Table Nat ρ} {n k : Nat} {r : ρ}
    (h : availablePrimaryKey t = .ok n) (hk : t.find k = some r) : k < n := by
  unfold availablePrimaryKey at h
  split at h
  · rename_i hl
    have hm := Table.mem_rows.mpr hk
    rw [Table.last, List.getLast?_eq_none_iff] at hl
    rw [hl] at hm; cases hm
  · rename_i m r' hl
    simp only [bind_eq_ok, check_eq_ok, pure_eq_ok, exists_const] at h
    obtain ⟨-, rfl⟩ := h
    exact Nat.lt_succ_of_le (Table.le_last hl hk)

theorem availablePrimaryKey_error {t : Table Nat ρ} {e : String}
    (h : availablePrimaryKey t = .error e) :
    e = "next primary key in table is at autoincrement limit" := by
  unfold availablePrimaryKey at h
  split at h
  · cases h
  · simp only [bind_eq_error, check_eq_error, pure_eq_error, and_false, exists_false, or_false] at h
    exact h.2.symm

theorem availablePrimaryKey_fresh {t : Table Nat ρ} {n : Nat} (h : availablePrimaryKey t = .ok n) :
    t.find n = none := by
  cases hf : t.find n with
  | none => rfl
  | some r => exact absurd (lt_availablePrimaryKey h hf) (Nat.lt_irrefl n)

end Tables

end Eosforce
