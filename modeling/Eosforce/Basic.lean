import Eosforce.Lib.Fallible
import Mathlib.Algebra.Ring.Int.Defs
import Mathlib.Algebra.Ring.Nat

/-!
# Names, integers and assets

The value types of the contract library that every contract uses.

* `u32`, `u64`, `i32`, `i64`: the value that a store to a C++ integer of that width keeps. Block
  heights, counters and weights are `Nat`s below the width; where the code adds, subtracts or
  multiplies them, the model wraps. `int64_t` stake totals and ages are exact `Int`s.
* `Name`: an account name or other `name`, as its `uint64_t` value (the order of the tables).
  `Name.ofString` is the constructor from text.
* `Symbol`, `Asset`: `eosio::symbol` and `eosio::asset`, with the checks of the asset operators.
-/

namespace Eosforce

open Fallible

/-! ## Integers of a width -/

/-- The value stored in a `uint32_t`. -/
def u32 (n : Nat) : Nat := n % 2 ^ 32

/-- The value stored in a `uint64_t`. -/
def u64 (n : Nat) : Nat := n % 2 ^ 64

/-- An `Int` converted to `uint32_t`. -/
def u32OfInt (x : Int) : Nat := (x % 2 ^ 32).toNat

/-- An `Int` converted to `uint64_t`. -/
def u64OfInt (x : Int) : Nat := (x % 2 ^ 64).toNat

/-- The value stored in an `int32_t`. -/
def i32 (x : Int) : Int := x.bmod (2 ^ 32)

/-- The value stored in an `int64_t`. -/
def i64 (x : Int) : Int := x.bmod (2 ^ 64)

/-- `uint32_t` subtraction. -/
def u32sub (a b : Nat) : Nat := u32OfInt ((a : Int) - b)

theorem u32_of_lt {n : Nat} (h : n < 2 ^ 32) : u32 n = n := Nat.mod_eq_of_lt h

theorem u32_lt (n : Nat) : u32 n < 2 ^ 32 := Nat.mod_lt _ (by decide)

theorem u32OfInt_of_range {x : Int} (h0 : 0 ≤ x) (h : x < 2 ^ 32) : (u32OfInt x : Int) = x := by
  unfold u32OfInt; omega

/-- Without a borrow, the subtraction is exact. -/
theorem u32sub_of_le {a b : Nat} (h : b ≤ a) (ha : a < 2 ^ 32) : u32sub a b = a - b := by
  unfold u32sub u32OfInt; omega

@[simp] theorem u32sub_self (a : Nat) : u32sub a a = 0 := by
  unfold u32sub u32OfInt; omega

theorem u32sub_cast {a b : Nat} (h : b ≤ a) (ha : a < 2 ^ 32) :
    (u32sub a b : Int) = (a : Int) - b := by
  rw [u32sub_of_le h ha]; omega

theorem i64_of_range {x : Int} (h0 : -2 ^ 63 ≤ x) (h : x < 2 ^ 63) : i64 x = x := by
  unfold i64; rw [Int.bmod_def]; split <;> omega

theorem i32_of_range {x : Int} (h0 : -2 ^ 31 ≤ x) (h : x < 2 ^ 31) : i32 x = x := by
  unfold i32; rw [Int.bmod_def]; split <;> omega

/-- What wraps in a sum wraps once. -/
theorem i32_i32_add (x y : Int) : i32 (i32 x + y) = i32 (x + y) := Int.bmod_add_bmod

/-! ## Names -/

/-- A `name` or `account_name`, as its `uint64_t` value. -/
abbrev Name := Nat

namespace Name

/-- The five bits of a character of a name. -/
def charToValue (c : Char) : Except String Nat :=
  if c = '.' then .ok 0
  else if '1' ≤ c ∧ c ≤ '5' then .ok (c.toNat - '1'.toNat + 1)
  else if 'a' ≤ c ∧ c ≤ 'z' then .ok (c.toNat - 'a'.toNat + 6)
  else .error "character is not in allowed character set for names"

/-- `name{str}`: five bits for each of the first twelve characters, four for the thirteenth. -/
def ofString (str : String) : Except String Name := do
  let cs := str.toList
  check (str.utf8ByteSize ≤ 13) "string is too long to be a valid name"
  let head := cs.take 12
  let value ← head.foldlM (fun v c => do
    let x ← charToValue c
    pure (v * 32 + x)) 0
  let value := value * 2 ^ (4 + 5 * (12 - head.length))
  match cs.drop 12 with
  | [] => pure (if cs.isEmpty then 0 else value)
  | c :: _ => do
    let v ← charToValue c
    check (v ≤ 15) "thirteenth character in name cannot be a letter that comes after j"
    pure (value + v)

end Name

/-- The account `eosio`. -/
def systemAccount : Name := 0x5530ea0000000000

/-- The account `eosio.pledge`. -/
def pledgeAccount : Name := 0x5530ea02b15258a0

/-- The account `eosc.budget`. -/
def budgetAccount : Name := 0x5530801f4962b200

/-- The pledge type `block.out`. -/
def blockOutPledge : Name := 0x3c6888029ac80000

example : ["eosio", "eosio.pledge", "eosc.budget", "block.out"].mapM Name.ofString =
    .ok [systemAccount, pledgeAccount, budgetAccount, blockOutPledge] := by decide

/-! ## Assets -/

/-- A token symbol: the raw `symbol_code` (the letters as bytes) and the precision. -/
structure Symbol where
  code : Nat
  precision : Nat
  deriving DecidableEq, Repr

/-- The raw value of a symbol code: the first letter in the lowest byte. -/
def symbolCode (s : String) : Nat := s.toList.foldr (fun c v => v * 256 + c.toNat) 0

/-- `CORE_SYMBOL`: `4,EOS`. -/
def coreSymbol : Symbol := ⟨0x534f45, 4⟩

example : coreSymbol.code = symbolCode "EOS" := by decide

/-- The bytes of a symbol code up to the first zero byte are letters, and no letter follows it. -/
def symbolCodeValid : Nat → Nat → Bool
  | 0, v => v == 0
  | n + 1, v =>
    let c := v % 256
    if c = 0 then v == 0 else decide ('A'.toNat ≤ c ∧ c ≤ 'Z'.toNat) && symbolCodeValid n (v / 256)

/-- `symbol::is_valid`: one to seven capital letters. -/
def Symbol.isValid (s : Symbol) : Bool := s.code != 0 && symbolCodeValid 7 s.code

/-- `eosio::asset`: an amount in the smallest unit, and its symbol. -/
structure Asset where
  amount : Int
  symbol : Symbol
  deriving DecidableEq, Repr

namespace Asset

/-- `asset::max_amount`. -/
def maxAmount : Int := 2 ^ 62 - 1

/-- `is_amount_within_range`. -/
def InRange (x : Int) : Prop := -maxAmount ≤ x ∧ x ≤ maxAmount

instance (x : Int) : Decidable (InRange x) := inferInstanceAs (Decidable (_ ∧ _))

/-- `asset::is_valid`. -/
def IsValid (a : Asset) : Prop := InRange a.amount ∧ a.symbol.isValid = true

instance (a : Asset) : Decidable a.IsValid := inferInstanceAs (Decidable (_ ∧ _))

/-- Zero of the core token, the default of the asset fields. -/
def zero : Asset := ⟨0, coreSymbol⟩

/-- The constructor `asset( amount, symbol )`. -/
def make (amount : Int) (symbol : Symbol) : Except String Asset := do
  check (InRange amount) "magnitude of asset amount must be less than 2^62"
  check (symbol.isValid = true) "invalid symbol name"
  pure ⟨amount, symbol⟩

/-- `operator+=`. -/
def add (a b : Asset) : Except String Asset := do
  check (b.symbol = a.symbol) "attempt to add asset with different symbol"
  check (-maxAmount ≤ a.amount + b.amount) "addition underflow"
  check (a.amount + b.amount ≤ maxAmount) "addition overflow"
  pure { a with amount := a.amount + b.amount }

/-- `operator-=`. -/
def sub (a b : Asset) : Except String Asset := do
  check (b.symbol = a.symbol) "attempt to subtract asset with different symbol"
  check (-maxAmount ≤ a.amount - b.amount) "subtraction underflow"
  check (a.amount - b.amount ≤ maxAmount) "subtraction overflow"
  pure { a with amount := a.amount - b.amount }

/-- Unary minus. -/
def neg (a : Asset) : Asset := { a with amount := -a.amount }

/-- `operator*=` by an integer. -/
def mul (a : Asset) (x : Int) : Except String Asset := do
  check (a.amount * x ≤ maxAmount) "multiplication overflow"
  check (-maxAmount ≤ a.amount * x) "multiplication underflow"
  pure { a with amount := a.amount * x }

/-- `operator/=` by an integer. -/
def div (a : Asset) (x : Int) : Except String Asset := do
  check (x ≠ 0) "divide by zero"
  check (¬(a.amount = -2 ^ 63 ∧ x = -1)) "signed division overflow"
  pure { a with amount := a.amount.tdiv x }

/-- The check of the comparison operators. -/
def sameSymbol (a b : Asset) : Except String Unit :=
  check (a.symbol = b.symbol) "comparison of assets with different symbols is not allowed"

/-- `operator<`. -/
def lt (a b : Asset) : Except String Bool := do
  sameSymbol a b
  pure (decide (a.amount < b.amount))

/-- `operator<=`. -/
def le (a b : Asset) : Except String Bool := do
  sameSymbol a b
  pure (decide (a.amount ≤ b.amount))

/-- `operator==`. -/
def eq (a b : Asset) : Except String Bool := do
  sameSymbol a b
  pure (decide (a.amount = b.amount))

/-! ### What a successful operation says -/

theorem make_eq_ok {x : Int} {s : Symbol} {c : Asset} :
    make x s = .ok c ↔ InRange x ∧ s.isValid = true ∧ c = ⟨x, s⟩ := by
  simp only [make, bind_eq_ok, check_eq_ok, pure_eq_ok]
  constructor
  · rintro ⟨_, h1, _, h2, rfl⟩; exact ⟨h1, h2, rfl⟩
  · rintro ⟨h1, h2, rfl⟩; exact ⟨(), h1, (), h2, rfl⟩

theorem add_eq_ok {a b c : Asset} :
    a.add b = .ok c ↔ b.symbol = a.symbol ∧ InRange (a.amount + b.amount) ∧
      c = ⟨a.amount + b.amount, a.symbol⟩ := by
  simp only [add, bind_eq_ok, check_eq_ok, pure_eq_ok]
  constructor
  · rintro ⟨_, h1, _, h2, _, h3, rfl⟩; exact ⟨h1, ⟨h2, h3⟩, rfl⟩
  · rintro ⟨h1, ⟨h2, h3⟩, rfl⟩; exact ⟨(), h1, (), h2, (), h3, rfl⟩

theorem sub_eq_ok {a b c : Asset} :
    a.sub b = .ok c ↔ b.symbol = a.symbol ∧ InRange (a.amount - b.amount) ∧
      c = ⟨a.amount - b.amount, a.symbol⟩ := by
  simp only [sub, bind_eq_ok, check_eq_ok, pure_eq_ok]
  constructor
  · rintro ⟨_, h1, _, h2, _, h3, rfl⟩; exact ⟨h1, ⟨h2, h3⟩, rfl⟩
  · rintro ⟨h1, ⟨h2, h3⟩, rfl⟩; exact ⟨(), h1, (), h2, (), h3, rfl⟩

theorem mul_eq_ok {a c : Asset} {x : Int} :
    a.mul x = .ok c ↔ InRange (a.amount * x) ∧ c = ⟨a.amount * x, a.symbol⟩ := by
  simp only [mul, bind_eq_ok, check_eq_ok, pure_eq_ok]
  constructor
  · rintro ⟨_, h1, _, h2, rfl⟩; exact ⟨⟨h2, h1⟩, rfl⟩
  · rintro ⟨⟨h2, h1⟩, rfl⟩; exact ⟨(), h1, (), h2, rfl⟩

theorem div_eq_ok {a c : Asset} {x : Int} :
    a.div x = .ok c ↔ x ≠ 0 ∧ ¬(a.amount = -2 ^ 63 ∧ x = -1) ∧
      c = ⟨a.amount.tdiv x, a.symbol⟩ := by
  simp only [div, bind_eq_ok, check_eq_ok, pure_eq_ok]
  constructor
  · rintro ⟨_, h1, _, h2, rfl⟩; exact ⟨h1, h2, rfl⟩
  · rintro ⟨h1, h2, rfl⟩; exact ⟨(), h1, (), h2, rfl⟩

theorem lt_eq_ok {a b : Asset} {r : Bool} :
    a.lt b = .ok r ↔ a.symbol = b.symbol ∧ r = decide (a.amount < b.amount) := by
  simp only [lt, sameSymbol, bind_eq_ok, check_eq_ok, pure_eq_ok, exists_const, eq_comm (b := r)]

theorem le_eq_ok {a b : Asset} {r : Bool} :
    a.le b = .ok r ↔ a.symbol = b.symbol ∧ r = decide (a.amount ≤ b.amount) := by
  simp only [le, sameSymbol, bind_eq_ok, check_eq_ok, pure_eq_ok, exists_const, eq_comm (b := r)]

theorem eq_eq_ok {a b : Asset} {r : Bool} :
    a.eq b = .ok r ↔ a.symbol = b.symbol ∧ r = decide (a.amount = b.amount) := by
  simp only [eq, sameSymbol, bind_eq_ok, check_eq_ok, pure_eq_ok, exists_const, eq_comm (b := r)]

@[simp] theorem neg_amount (a : Asset) : a.neg.amount = -a.amount := rfl

end Asset

theorem coreSymbol_isValid : coreSymbol.isValid = true := by decide

end Eosforce
