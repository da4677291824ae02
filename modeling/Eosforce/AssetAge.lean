import Eosforce.Basic
import Eosforce.Lib.Accrual
import Mathlib.Tactic.Ring

/-!
# Asset ages (`contracts/include/eosforce/assetage.hpp`)

An asset age grows by the staked whole tokens with every block. The code settles it lazily: the
row keeps the age at its last update and the height of that update.

* `AssetAge`: the C++ struct, with `getAge`, `changeStakedTo`, `addStakedBy`, `minusStakedBy` and
  `cleanAge`. Ages are exact integers, which is what the `int64_t`s of the code are where they fit;
  the height difference is a `uint32_t`.
* `AssetAge.accrual`: the quantity in the sense of `Lib/Accrual.lean` that a row keeps.
-/

namespace Eosforce

open Fallible Accruals

/-- `utils::precision_base`: exact for up to 18 decimals. -/
def precisionBase (decimals : Nat) : Int := 10 ^ decimals

/-- `CORE_SYMBOL_PRECISION`. -/
def coreSymbolPrecision : Int := precisionBase coreSymbol.precision

theorem coreSymbolPrecision_eq : coreSymbolPrecision = 10000 := by decide

/-- `eosforce::assetage`. -/
structure AssetAge where
  staked : Asset := Asset.zero
  age : Int := 0
  updateHeight : Nat := 0
  deriving DecidableEq

namespace AssetAge

/-- `assetage::get_age`. -/
def getAge (a : AssetAge) (currBlockNum : Nat) : Int :=
  a.staked.amount.tdiv (precisionBase a.staked.symbol.precision) *
    (u32sub currBlockNum a.updateHeight : Int) + a.age

/-- `assetage::change_staked_to`. -/
def changeStakedTo (a : AssetAge) (currBlockNum : Nat) (newStaked : Asset) : AssetAge :=
  { staked := newStaked, age := a.getAge currBlockNum, updateHeight := currBlockNum }

/-- `assetage::add_staked_by`. -/
def addStakedBy (a : AssetAge) (currBlockNum : Nat) (s : Asset) : Except String AssetAge := do
  let staked ← a.staked.add s
  pure { staked, age := a.getAge currBlockNum, updateHeight := currBlockNum }

/-- `assetage::minus_staked_by`. -/
def minusStakedBy (a : AssetAge) (currBlockNum : Nat) (s : Asset) : Except String AssetAge := do
  let staked ← a.staked.sub s
  pure { staked, age := a.getAge currBlockNum, updateHeight := currBlockNum }

/-- `assetage::clean_age`. -/
def cleanAge (a : AssetAge) (currBlockNum : Nat) : AssetAge :=
  { a with age := 0, updateHeight := currBlockNum }

theorem addStakedBy_eq_ok {a b : AssetAge} {h : Nat} {s : Asset} :
    a.addStakedBy h s = .ok b ↔ s.symbol = a.staked.symbol ∧
      Asset.InRange (a.staked.amount + s.amount) ∧
      b = ⟨⟨a.staked.amount + s.amount, a.staked.symbol⟩, a.getAge h, h⟩ := by
  simp only [addStakedBy, bind_eq_ok, Asset.add_eq_ok, pure_eq_ok]
  constructor
  · rintro ⟨_, ⟨h1, h2, rfl⟩, rfl⟩; exact ⟨h1, h2, rfl⟩
  · rintro ⟨h1, h2, rfl⟩; exact ⟨_, ⟨h1, h2, rfl⟩, rfl⟩

theorem minusStakedBy_eq_ok {a b : AssetAge} {h : Nat} {s : Asset} :
    a.minusStakedBy h s = .ok b ↔ s.symbol = a.staked.symbol ∧
      Asset.InRange (a.staked.amount - s.amount) ∧
      b = ⟨⟨a.staked.amount - s.amount, a.staked.symbol⟩, a.getAge h, h⟩ := by
  simp only [minusStakedBy, bind_eq_ok, Asset.sub_eq_ok, pure_eq_ok]
  constructor
  · rintro ⟨_, ⟨h1, h2, rfl⟩, rfl⟩; exact ⟨h1, h2, rfl⟩
  · rintro ⟨h1, h2, rfl⟩; exact ⟨_, ⟨h1, h2, rfl⟩, rfl⟩

/-- The whole tokens staked: the rate at which the age grows. -/
def rate (a : AssetAge) : Int := a.staked.amount.tdiv (precisionBase a.staked.symbol.precision)

/-- The lazily settled quantity that a row keeps. -/
def accrual (a : AssetAge) : Accrual := ⟨a.rate, a.age, a.updateHeight⟩

/-- At heights from the last update on, the code's age is the accrued quantity. -/
theorem getAge_eq {a : AssetAge} {h : Nat} (hle : a.updateHeight ≤ h) (hlt : h < 2 ^ 32) :
    a.getAge h = a.accrual.value h := by
  rw [getAge, u32sub_cast hle hlt]
  rfl

end AssetAge

end Eosforce
