import Eosforce.Basic
import Mathlib.Data.List.DropRight

/-!
# Names as text

A name has twelve digits of five bits and one of four. Its text has a character for each digit,
without the zeros at the end.

* `Name.toText`: the text of a name.
* `Name.ofString_toText`: every 64-bit name is read back from its text.
* `nameValue`: how a text is read as a name.
-/

namespace Eosforce.Name

open Fallible

/-! ## Digits -/

/-- The first `k` of the digits of five bits. -/
def heads (n : Name) (k : Nat) : List Nat :=
  (List.range k).map fun i => n / 2 ^ (4 + 5 * (11 - i)) % 32

theorem length_heads (n : Name) (k : Nat) : (heads n k).length = k := by
  rw [heads, List.length_map, List.length_range]

/-- The thirteen digits of a name. -/
def digits (n : Name) : List Nat := heads n 12 ++ [n % 16]

/-- The name of at most thirteen digits; the ones that are missing are zeros. -/
def ofDigits (ds : List Nat) : Name :=
  (ds.take 12).foldl (fun v x => v * 32 + x) 0 * 2 ^ (4 + 5 * (12 - (ds.take 12).length)) +
    (ds.drop 12).headD 0

/-- The digits that a text can have. -/
structure IsDigits (ds : List Nat) : Prop where
  length : ds.length ≤ 13
  lt : ∀ x ∈ ds, x < 32
  last : ∀ x ∈ ds.drop 12, x < 16

theorem foldl_heads (n : Nat) {k : Nat} (hk : k ≤ 12) :
    (heads n k).foldl (fun v x => v * 32 + x) 0 = n / 2 ^ (4 + 5 * (12 - k)) % 32 ^ k := by
  induction k with
  | zero => rw [Nat.pow_zero, Nat.mod_one]; rfl
  | succ k ih =>
    have hdiv : n / 2 ^ (4 + 5 * (12 - k)) = n / 2 ^ (4 + 5 * (11 - k)) / 32 := by
      rw [show 4 + 5 * (12 - k) = 4 + 5 * (11 - k) + 5 by omega, Nat.pow_add,
        ← Nat.div_div_eq_div_mul]
    -- the digit is the remainder of what the `k` digits before it are the quotient of
    have ih := ih (by omega)
    rw [heads] at ih ⊢
    rw [List.range_succ, List.map_append, List.foldl_append, ih, hdiv]
    show _ % 32 ^ k * 32 + n / 2 ^ (4 + 5 * (11 - k)) % 32 = _
    rw [show 12 - (k + 1) = 11 - k by omega, Nat.pow_succ', Nat.mod_mul]
    omega

theorem ofDigits_digits {n : Nat} (h : n < 2 ^ 64) : ofDigits (digits n) = n := by
  have hlen := length_heads n 12
  rw [ofDigits, digits, List.take_left' hlen, List.drop_left' hlen, foldl_heads n le_rfl, hlen]
  show n / 16 % 32 ^ 12 * 16 + n % 16 = n
  rw [Nat.mod_eq_of_lt (by omega), Nat.div_add_mod']

theorem isDigits_digits (n : Name) : IsDigits (digits n) := by
  have hlen := length_heads n 12
  refine ⟨?_, ?_, ?_⟩
  · rw [digits, List.length_append, hlen]
    rfl
  · intro x hx
    rcases List.mem_append.mp hx with hx | hx
    · obtain ⟨i, -, rfl⟩ := List.mem_map.mp hx
      exact Nat.mod_lt _ (by decide)
    · rw [List.mem_singleton.mp hx]
      omega
  · intro x hx
    rw [digits, List.drop_left' hlen] at hx
    rw [List.mem_singleton.mp hx]
    exact Nat.mod_lt _ (by decide)

/-- A zero at the end is one of the missing digits. -/
theorem ofDigits_append_zero {ds : List Nat} (h : ds.length < 13) :
    ofDigits (ds ++ [0]) = ofDigits ds := by
  unfold ofDigits
  rcases Nat.lt_or_ge ds.length 12 with hlt | hge
  · rw [List.take_of_length_le (by simp; omega), List.take_of_length_le (by omega),
      List.drop_of_length_le (by simp; omega), List.drop_of_length_le (by omega),
      List.foldl_append, List.length_append, List.length_singleton]
    have hpow : 2 ^ (4 + 5 * (12 - ds.length)) = 32 * 2 ^ (4 + 5 * (12 - (ds.length + 1))) := by
      rw [show 4 + 5 * (12 - ds.length) = 5 + (4 + 5 * (12 - (ds.length + 1))) by omega,
        Nat.pow_add]
    rw [hpow, ← Nat.mul_assoc]
    rfl
  · have hlen : ds.length = 12 := by omega
    rw [List.take_left' hlen, List.drop_left' hlen, List.take_of_length_le (by omega),
      List.drop_of_length_le (by omega)]
    rfl

/-- The digits without the zeros at the end. -/
def trim (ds : List Nat) : List Nat := ds.rdropWhile fun x => x = 0

theorem ofDigits_trim {ds : List Nat} (h : ds.length ≤ 13) : ofDigits (trim ds) = ofDigits ds := by
  induction ds using List.reverseRecOn with
  | nil => rfl
  | append_singleton ds x ih =>
    rw [List.length_append, List.length_singleton] at h
    rw [trim, List.rdropWhile_concat]
    split
    · rename_i hx
      rw [of_decide_eq_true hx, ofDigits_append_zero (by omega)]
      exact ih (by omega)
    · rfl

/-! ## Characters -/

/-- The character of a digit. -/
def valueToChar (x : Nat) : Char := ".12345abcdefghijklmnopqrstuvwxyz".toList.getD x '.'

theorem charToValue_valueToChar : ∀ x < 32, charToValue (valueToChar x) = .ok x := by decide

theorem utf8Size_valueToChar : ∀ x < 32, (valueToChar x).utf8Size = 1 := by decide

theorem utf8ByteSize_digits {ds : List Nat} (h : ∀ x ∈ ds, x < 32) :
    (String.ofList (ds.map valueToChar)).utf8ByteSize = ds.length := by
  induction ds with
  | nil => rfl
  | cons x ds ih =>
    have hx : (String.ofList [valueToChar x]).utf8ByteSize = 1 :=
      String.utf8ByteSize_singleton.trans (utf8Size_valueToChar x (h x List.mem_cons_self))
    rw [List.map_cons, ← List.singleton_append, String.ofList_append, String.utf8ByteSize_append,
      hx, ih fun y hy => h y (List.mem_cons_of_mem _ hy), List.length_cons, Nat.add_comm]

theorem foldlM_digits {ds : List Nat} (h : ∀ x ∈ ds, x < 32) (v : Nat) :
    (ds.map valueToChar).foldlM (fun v c => do
      let x ← charToValue c
      pure (v * 32 + x)) v = Except.ok (ds.foldl (fun v x => v * 32 + x) v) := by
  induction ds generalizing v with
  | nil => rfl
  | cons x ds ih =>
    rw [List.map_cons, List.foldlM_cons, charToValue_valueToChar x (h x List.mem_cons_self)]
    exact ih (fun y hy => h y (List.mem_cons_of_mem _ hy)) _

/-- A text of digits is read as the name of these digits. -/
theorem ofString_ofList {ds : List Nat} (h : IsDigits ds) :
    ofString (.ofList (ds.map valueToChar)) = .ok (ofDigits ds) := by
  have hsize : check ((String.ofList (ds.map valueToChar)).utf8ByteSize ≤ 13)
      "string is too long to be a valid name" = .ok () :=
    check_eq_ok.mpr (by rw [utf8ByteSize_digits h.lt]; exact h.length)
  have hheads := foldlM_digits (fun x hx => h.lt x (List.mem_of_mem_take (i := 12) hx)) 0
  simp only [ofString, hsize, ok_bind, String.toList_ofList, ← List.map_take, ← List.map_drop,
    List.length_map, hheads]
  cases hd : ds.drop 12 with
  | nil =>
    cases ds with
    | nil => rfl
    | cons x ds =>
      rw [ofDigits, hd]
      rfl
  | cons x l =>
    have hx : x ∈ ds.drop 12 := hd ▸ List.mem_cons_self
    have hlast : check (x ≤ 15) "thirteenth character in name cannot be a letter that comes after j"
        = .ok () := check_eq_ok.mpr (Nat.le_of_lt_succ (h.last x hx))
    simp only [List.map_cons, charToValue_valueToChar x (h.lt x (List.mem_of_mem_drop hx)), ok_bind,
      hlast, ofDigits, hd]
    rfl

/-! ## Text -/

/-- The text of a name. -/
def toText (n : Name) : String := .ofList ((trim (digits n)).map valueToChar)

example : [systemAccount, pledgeAccount, budgetAccount, blockOutPledge].map toText =
    ["eosio", "eosio.pledge", "eosc.budget", "block.out"] := by decide

theorem IsDigits.trim {ds : List Nat} (h : IsDigits ds) : IsDigits (trim ds) := by
  have hpre : Name.trim ds <+: ds := List.rdropWhile_prefix _ _
  refine ⟨hpre.length_le.trans h.length, fun x hx => h.lt x (hpre.subset hx), fun x hx => ?_⟩
  obtain ⟨t, ht⟩ := hpre
  apply h.last x
  rw [← ht, List.drop_append]
  exact List.mem_append_left _ hx

/-- **Round trip.** Every 64-bit name is read back from its text. -/
theorem ofString_toText {n : Name} (h : n < 2 ^ 64) : ofString (toText n) = .ok n := by
  have hdig := isDigits_digits n
  rw [toText, ofString_ofList hdig.trim, ofDigits_trim hdig.length, ofDigits_digits h]

end Eosforce.Name

namespace Eosforce

/-- The name that a text is read as: zero for the empty one, and for one that is no name. -/
def nameValue (str : String) : Name := (Name.ofString str).toOption.getD 0

end Eosforce
