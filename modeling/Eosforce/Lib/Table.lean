import Mathlib.Algebra.BigOperators.Group.Finset.Basic
import Mathlib.Order.Defs.LinearOrder
import Mathlib.Algebra.Order.Group.Int
import Mathlib.Tactic.Abel

/-!
# Keyed tables

A finite table of rows under keys of a linear order, and a table of such tables.

* `Table κ ρ`: the rows in strictly increasing key order (the order is a field, so a table with a
  repeated key cannot be built). `find`, `put` (insert or replace), `erase`; `rows` is what an
  iteration in key order sees.
* `Table.sum w`: the sum over the rows of a weight `w key row` in a commutative group.
  `Table.sum_put` and `Table.sum_erase` say how a sum changes when one row does: the old row's
  weight (`Table.val`, zero for a missing row) leaves and the new row's weight enters.
* `Scoped σ κ ρ`: one table for each scope, all empty at first; the same operations and sum rules.
  `Scoped.keySum w k`: the sum over the rows of one key in all scopes.
* `Table.size`: the number of rows.
* `All P`: every row has property `P`.
* `Table.ext_find`: two tables with the same lookups are equal.
-/

namespace Keyed

variable {σ κ ρ : Type}

/-! ## Association lists in key order -/

section Rows

variable [LinearOrder κ]

/-- The row of key `k`. -/
def findRow (k : κ) : List (κ × ρ) → Option ρ
  | [] => none
  | (k', r) :: l => if k' = k then some r else findRow k l

/-- The list with row `r` for key `k`, at the place of the key. -/
def putRow (k : κ) (r : ρ) : List (κ × ρ) → List (κ × ρ)
  | [] => [(k, r)]
  | (k', r') :: l =>
    if k < k' then (k, r) :: (k', r') :: l
    else if k' = k then (k, r) :: l
    else (k', r') :: putRow k r l

/-- The list without the row of key `k`. -/
def eraseRow (k : κ) (l : List (κ × ρ)) : List (κ × ρ) := l.filter fun p => p.1 ≠ k

/-- Strictly increasing keys. -/
def SortedKeys (l : List (κ × ρ)) : Prop := l.Pairwise fun p q => p.1 < q.1

theorem SortedKeys.nodup {l : List (κ × ρ)} (hs : SortedKeys l) : l.Nodup := by
  unfold SortedKeys at hs
  unfold List.Nodup
  refine hs.imp fun {p q} hlt e => ?_
  subst e
  exact lt_irrefl _ hlt

theorem findRow_eq_none {k : κ} {l : List (κ × ρ)} (h : ∀ p ∈ l, p.1 ≠ k) :
    findRow k l = none := by
  induction l with
  | nil => rfl
  | cons p l ih =>
    simp only [findRow, h p (by simp), ↓reduceIte]
    exact ih fun q hq => h q (by simp [hq])

theorem findRow_eq_some {k : κ} {r : ρ} {l : List (κ × ρ)} (hs : SortedKeys l) :
    findRow k l = some r ↔ (k, r) ∈ l := by
  induction l with
  | nil => simp [findRow]
  | cons p l ih =>
    obtain ⟨k', r'⟩ := p
    obtain ⟨hlt, hs⟩ := List.pairwise_cons.mp hs
    by_cases h : k' = k
    · subst h
      have hn : (k', r) ∉ l := fun hm => lt_irrefl k' (hlt (k', r) hm)
      simp [findRow, hn, eq_comm]
    · simp [findRow, h, ih hs, Ne.symm h]

theorem mem_putRow {k : κ} {r : ρ} {l : List (κ × ρ)} {p : κ × ρ} (h : p ∈ putRow k r l) :
    p = (k, r) ∨ p ∈ l := by
  induction l with
  | nil => simpa [putRow] using h
  | cons q l ih =>
    unfold putRow at h
    split at h
    · simpa using h
    · split at h
      · rcases List.mem_cons.mp h with h | h
        · exact .inl h
        · exact .inr (by simp [h])
      · rcases List.mem_cons.mp h with h | h
        · exact .inr (by simp [h])
        · exact (ih h).imp id fun h => by simp [h]

theorem sortedKeys_putRow {l : List (κ × ρ)} (k : κ) (r : ρ) (hs : SortedKeys l) :
    SortedKeys (putRow k r l) := by
  induction l with
  | nil => exact List.pairwise_singleton _ _
  | cons q l ih =>
    obtain ⟨hlt, hs'⟩ := List.pairwise_cons.mp hs
    unfold putRow
    split
    · rename_i h
      refine List.pairwise_cons.mpr ⟨fun p hp => ?_, hs⟩
      rcases List.mem_cons.mp hp with rfl | hp
      · exact h
      · exact h.trans (hlt p hp)
    · split
      · rename_i h
        exact List.pairwise_cons.mpr ⟨fun p hp => h ▸ hlt p hp, hs'⟩
      · rename_i h1 h2
        refine List.pairwise_cons.mpr ⟨fun p hp => ?_, ih hs'⟩
        rcases mem_putRow hp with rfl | hp
        · exact lt_of_le_of_ne (not_lt.mp h1) h2
        · exact hlt p hp

theorem findRow_putRow (k k' : κ) (r : ρ) (l : List (κ × ρ)) :
    findRow k' (putRow k r l) = if k = k' then some r else findRow k' l := by
  induction l with
  | nil => simp [putRow, findRow]
  | cons q l ih =>
    unfold putRow
    split
    · simp only [findRow]
    · split
      · rename_i h
        simp only [findRow]
        split <;> simp_all
      · rename_i h
        simp only [findRow, ih]
        by_cases hk : k = k'
        · subst hk; simp [h]
        · simp [hk]

/-- A replaced row has the same key. -/
theorem keys_putRow {k : κ} {r : ρ} (r' : ρ) {l : List (κ × ρ)} (hs : SortedKeys l)
    (h : findRow k l = some r) : (putRow k r' l).map Prod.fst = l.map Prod.fst := by
  induction l with
  | nil => cases h
  | cons q l ih =>
    obtain ⟨k', r₀⟩ := q
    obtain ⟨hlt, hs'⟩ := List.pairwise_cons.mp hs
    unfold findRow at h
    unfold putRow
    by_cases hk : k' = k
    · subst hk
      rw [if_neg (lt_irrefl _), if_pos rfl]
      rfl
    · rw [if_neg hk] at h
      -- the row of `k` is in the rest, so its key is not below `k'`
      have hlt' : k' < k := hlt _ ((findRow_eq_some hs').mp h)
      rw [if_neg (not_lt_of_gt hlt'), if_neg hk, List.map_cons, ih hs' h, List.map_cons]

theorem findRow_eraseRow (k k' : κ) (l : List (κ × ρ)) :
    findRow k' (eraseRow k l) = if k = k' then none else findRow k' l := by
  induction l with
  | nil => simp [eraseRow, findRow]
  | cons q l ih =>
    simp only [eraseRow, List.filter_cons] at ih ⊢
    by_cases h : q.1 = k
    · simp only [h, ne_eq, not_true_eq_false, decide_false, Bool.false_eq_true, ↓reduceIte, ih,
        findRow]
      split <;> rfl
    · simp only [ne_eq, h, not_false_eq_true, decide_true, ↓reduceIte, findRow, ih]
      by_cases hk : k = k'
      · subst hk; simp [h]
      · simp [hk]

theorem sortedKeys_eraseRow {l : List (κ × ρ)} (k : κ) (hs : SortedKeys l) :
    SortedKeys (eraseRow k l) := hs.filter _

variable {M : Type} [AddCommGroup M]

/-- The sum of the weights of the rows. -/
def rowSum (w : κ → ρ → M) (l : List (κ × ρ)) : M := (l.map fun p => w p.1 p.2).sum

theorem rowSum_putRow (w : κ → ρ → M) (k : κ) (r : ρ) {l : List (κ × ρ)} (hs : SortedKeys l) :
    rowSum w (putRow k r l) = rowSum w l - (findRow k l).elim 0 (w k) + w k r := by
  induction l with
  | nil => simp [putRow, rowSum, findRow]
  | cons q l ih =>
    obtain ⟨k', r'⟩ := q
    obtain ⟨hlt, hs'⟩ := List.pairwise_cons.mp hs
    have ih := ih hs'
    simp only [rowSum] at ih
    unfold putRow
    split
    · rename_i h
      have hne : k' ≠ k := (ne_of_lt h).symm
      have hnone : findRow k l = none :=
        findRow_eq_none fun p hp => (ne_of_lt (h.trans (hlt p hp))).symm
      simp only [rowSum, List.map_cons, List.sum_cons, findRow, hne, ↓reduceIte, hnone,
        Option.elim_none]
      abel
    · split
      · rename_i h
        subst h
        simp only [rowSum, List.map_cons, List.sum_cons, findRow, ↓reduceIte, Option.elim_some]
        abel
      · rename_i h
        simp only [rowSum, List.map_cons, List.sum_cons, ih, findRow, h, ↓reduceIte]
        abel

theorem rowSum_eraseRow (w : κ → ρ → M) (k : κ) {l : List (κ × ρ)} (hs : SortedKeys l) :
    rowSum w (eraseRow k l) = rowSum w l - (findRow k l).elim 0 (w k) := by
  induction l with
  | nil => simp [eraseRow, rowSum, findRow]
  | cons q l ih =>
    obtain ⟨k', r'⟩ := q
    obtain ⟨hlt, hs'⟩ := List.pairwise_cons.mp hs
    have ih := ih hs'
    simp only [rowSum, eraseRow] at ih
    by_cases h : k' = k
    · subst h
      have hnone : findRow k' l = none := findRow_eq_none fun p hp => (ne_of_lt (hlt p hp)).symm
      simp only [hnone, Option.elim_none, sub_zero] at ih
      simp only [rowSum, eraseRow, List.filter_cons, ne_eq, not_true_eq_false, decide_false,
        Bool.false_eq_true, ↓reduceIte, ih, List.map_cons, List.sum_cons, findRow,
        Option.elim_some]
      abel
    · simp only [rowSum, eraseRow, List.filter_cons, ne_eq, h, not_false_eq_true, decide_true,
        ↓reduceIte, List.map_cons, List.sum_cons, ih, findRow]
      abel

end Rows

/-! ## Tables -/

/-- A table: rows in strictly increasing key order. -/
structure Table (κ ρ : Type) [LinearOrder κ] where
  rows : List (κ × ρ)
  sorted : SortedKeys rows

namespace Table

variable [LinearOrder κ]

/-- The table with no row. -/
def empty : Table κ ρ := ⟨[], List.Pairwise.nil⟩

instance : EmptyCollection (Table κ ρ) := ⟨empty⟩

instance : Inhabited (Table κ ρ) := ⟨empty⟩

/-- The row of key `k`. -/
def find (t : Table κ ρ) (k : κ) : Option ρ := findRow k t.rows

/-- The table with row `r` for key `k`: a new row or a replaced one. -/
def put (t : Table κ ρ) (k : κ) (r : ρ) : Table κ ρ :=
  ⟨putRow k r t.rows, sortedKeys_putRow k r t.sorted⟩

/-- The table without a row for key `k`. -/
def erase (t : Table κ ρ) (k : κ) : Table κ ρ := ⟨eraseRow k t.rows, sortedKeys_eraseRow k t.sorted⟩

/-- The row with the largest key. -/
def last (t : Table κ ρ) : Option (κ × ρ) := t.rows.getLast?

@[simp] theorem find_empty (k : κ) : (∅ : Table κ ρ).find k = none := rfl

@[simp] theorem rows_empty : (∅ : Table κ ρ).rows = [] := rfl

theorem find_put (t : Table κ ρ) (k k' : κ) (r : ρ) :
    (t.put k r).find k' = if k = k' then some r else t.find k' := findRow_putRow k k' r t.rows

@[simp] theorem find_put_self (t : Table κ ρ) (k : κ) (r : ρ) : (t.put k r).find k = some r := by
  simp [find_put]

theorem find_put_ne (t : Table κ ρ) {k k' : κ} (r : ρ) (h : k ≠ k') :
    (t.put k r).find k' = t.find k' := by
  simp [find_put, h]

theorem find_erase (t : Table κ ρ) (k k' : κ) :
    (t.erase k).find k' = if k = k' then none else t.find k' := findRow_eraseRow k k' t.rows

@[simp] theorem find_erase_self (t : Table κ ρ) (k : κ) : (t.erase k).find k = none := by
  simp [find_erase]

theorem find_erase_ne (t : Table κ ρ) {k k' : κ} (h : k ≠ k') :
    (t.erase k).find k' = t.find k' := by
  simp [find_erase, h]

/-- The rows that an iteration sees are the rows that lookups find. -/
theorem mem_rows {t : Table κ ρ} {k : κ} {r : ρ} : (k, r) ∈ t.rows ↔ t.find k = some r :=
  (findRow_eq_some t.sorted).symm

theorem find_last {t : Table κ ρ} {k : κ} {r : ρ} (h : t.last = some (k, r)) :
    t.find k = some r := mem_rows.mp (List.mem_of_getLast? h)

/-- The last row has the largest key. -/
theorem le_last {t : Table κ ρ} {k k' : κ} {r r' : ρ} (h : t.last = some (k, r))
    (hk : t.find k' = some r') : k' ≤ k := by
  obtain ⟨l, hl⟩ := List.getLast?_eq_some_iff.mp h
  have hs := t.sorted
  have hm := mem_rows.mpr hk
  rw [hl, SortedKeys, List.pairwise_append] at hs
  rw [hl, List.mem_append, List.mem_singleton] at hm
  rcases hm with hm | hm
  · exact le_of_lt (hs.2.2 _ hm _ (List.mem_singleton.mpr rfl))
  · exact le_of_eq (congrArg Prod.fst hm)

/-- The row of the largest key is the last. -/
theorem last_of_max {t : Table κ ρ} {k : κ} {r : ρ} (h : t.find k = some r)
    (hmax : ∀ k' r', t.find k' = some r' → k' ≤ k) : t.last = some (k, r) := by
  cases hl : t.last with
  | none =>
    have hm := mem_rows.mpr h
    rw [List.getLast?_eq_none_iff.mp hl] at hm
    cases hm
  | some p =>
    obtain ⟨k', r'⟩ := p
    obtain rfl : k = k' := le_antisymm (le_last hl h) (hmax k' r' (find_last hl))
    obtain rfl := Option.some.inj (h.symm.trans (find_last hl))
    rfl

/-- A row that is put past all others is the last. -/
theorem last_put {t : Table κ ρ} {k : κ} (hmax : ∀ k' r', t.find k' = some r' → k' ≤ k) (r : ρ) :
    (t.put k r).last = some (k, r) := by
  refine last_of_max (find_put_self t k r) fun k' r' h => ?_
  by_cases hk : k = k'
  · exact hk.ge
  · exact hmax k' r' ((find_put_ne t r hk).symm.trans h)

theorem ext_find {t t' : Table κ ρ} (h : ∀ k, t.find k = t'.find k) : t = t' := by
  obtain ⟨l, hl⟩ := t
  obtain ⟨l', hl'⟩ := t'
  have hmem : ∀ p : κ × ρ, p ∈ l ↔ p ∈ l' := fun p => by
    rw [show p = (p.1, p.2) from rfl, ← findRow_eq_some hl, ← findRow_eq_some hl']
    exact iff_of_eq (congrArg (· = some p.2) (h p.1))
  have hp : l.Perm l' := (List.perm_ext_iff_of_nodup hl.nodup hl'.nodup).mpr hmem
  have e : l = l' := List.Perm.eq_of_pairwise (fun a b _ _ hab hba => absurd hab (lt_asymm hba))
    (show l.Pairwise fun p q => p.1 < q.1 from hl) hl' hp
  subst e; rfl

/-- Putting back the row that is there changes nothing. -/
theorem put_find {t : Table κ ρ} {k : κ} {r : ρ} (h : t.find k = some r) : t.put k r = t := by
  apply ext_find
  intro k'
  rw [find_put]
  split
  · subst_vars; exact h.symm
  · rfl

/-- The second of two rows for one key counts. -/
theorem put_put (t : Table κ ρ) (k : κ) (r r' : ρ) : (t.put k r).put k r' = t.put k r' := by
  apply ext_find
  intro k'
  simp only [find_put]
  split <;> rfl

/-- Rows for two keys can be put in either order. -/
theorem put_comm (t : Table κ ρ) {k k' : κ} (r r' : ρ) (h : k ≠ k') :
    (t.put k r).put k' r' = (t.put k' r').put k r := by
  apply ext_find
  intro j
  simp only [find_put]
  by_cases hk : k = j
  · rw [if_pos hk, if_pos hk, if_neg fun e => h (hk.trans e.symm)]
  · rw [if_neg hk, if_neg hk]

/-- A row for a key, where there is a new one. -/
def update (t : Table κ ρ) (k : κ) : Option ρ → Table κ ρ
  | none => t
  | some r => t.put k r

theorem find_update_ne (t : Table κ ρ) {k k' : κ} (o : Option ρ) (h : k ≠ k') :
    (t.update k o).find k' = t.find k' := by
  cases o with
  | none => rfl
  | some r => exact find_put_ne t r h

theorem update_comm (t : Table κ ρ) {k k' : κ} (o o' : Option ρ) (h : k ≠ k') :
    (t.update k o).update k' o' = (t.update k' o').update k o := by
  cases o with
  | none => rfl
  | some r =>
    cases o' with
    | none => rfl
    | some r' => exact put_comm t r r' h

/-! ### Properties of all rows -/

/-- Every row has property `P`. -/
def All (t : Table κ ρ) (P : κ → ρ → Prop) : Prop := ∀ k r, t.find k = some r → P k r

theorem all_empty (P : κ → ρ → Prop) : (∅ : Table κ ρ).All P := fun _ _ h => by cases h

theorem All.put {t : Table κ ρ} {P : κ → ρ → Prop} {k : κ} {r : ρ} (h : t.All P) (hr : P k r) :
    (t.put k r).All P := fun k' r' h' => by
  rw [find_put] at h'
  split at h'
  · rename_i e
    cases h'; exact e ▸ hr
  · exact h k' r' h'

theorem All.erase {t : Table κ ρ} {P : κ → ρ → Prop} (h : t.All P) (k : κ) :
    (t.erase k).All P := fun k' r' h' => by
  rw [find_erase] at h'
  split at h'
  · cases h'
  · exact h k' r' h'

theorem All.imp {t : Table κ ρ} {P Q : κ → ρ → Prop} (h : t.All P) (hPQ : ∀ k r, P k r → Q k r) :
    t.All Q := fun k r hr => hPQ k r (h k r hr)

/-! ### Sums over the rows -/

section Sum

variable {M : Type} [AddCommGroup M]

/-- The sum of the weights of the rows. -/
def sum (t : Table κ ρ) (w : κ → ρ → M) : M := rowSum w t.rows

/-- The weight of the row of key `k`: zero without one. -/
def val (t : Table κ ρ) (w : κ → ρ → M) (k : κ) : M := (t.find k).elim 0 (w k)

@[simp] theorem sum_empty (w : κ → ρ → M) : (∅ : Table κ ρ).sum w = 0 := rfl

theorem val_of_find {t : Table κ ρ} {w : κ → ρ → M} {k : κ} {r : ρ} (h : t.find k = some r) :
    t.val w k = w k r := by
  simp [val, h]

theorem val_of_none {t : Table κ ρ} {w : κ → ρ → M} {k : κ} (h : t.find k = none) :
    t.val w k = 0 := by
  simp [val, h]

/-- The weight of a row, or of a default row that weighs nothing. -/
theorem val_eq_getD {t : Table κ ρ} {w : κ → ρ → M} {k : κ} {d : ρ} (hd : w k d = 0) :
    t.val w k = w k ((t.find k).getD d) := by
  unfold val; cases t.find k <;> simp [hd]

theorem sum_put (t : Table κ ρ) (w : κ → ρ → M) (k : κ) (r : ρ) :
    (t.put k r).sum w = t.sum w - t.val w k + w k r := rowSum_putRow w k r t.sorted

theorem sum_erase (t : Table κ ρ) (w : κ → ρ → M) (k : κ) :
    (t.erase k).sum w = t.sum w - t.val w k := rowSum_eraseRow w k t.sorted

/-- The sum changes by the difference of the two rows' weights. -/
theorem sum_put_of_find {t : Table κ ρ} (w : κ → ρ → M) {k : κ} {r : ρ} (r' : ρ)
    (h : t.find k = some r) : (t.put k r').sum w = t.sum w + (w k r' - w k r) := by
  rw [sum_put, val_of_find h]; abel

/-- A row of the same weight keeps the sum. -/
theorem sum_put_same {t : Table κ ρ} {w : κ → ρ → M} {k : κ} {r r' : ρ} (h : t.find k = some r)
    (e : w k r' = w k r) : (t.put k r').sum w = t.sum w := by
  rw [sum_put_of_find w r' h, e, sub_self, add_zero]

theorem sum_congr {t : Table κ ρ} {w w' : κ → ρ → M}
    (h : ∀ k r, t.find k = some r → w k r = w' k r) : t.sum w = t.sum w' := by
  unfold sum rowSum
  refine congrArg List.sum (List.map_congr_left fun p hp => h p.1 p.2 (mem_rows.mp hp))

theorem sum_zero {t : Table κ ρ} {w : κ → ρ → M} (h : ∀ k r, t.find k = some r → w k r = 0) :
    t.sum w = 0 := by
  have hz : t.sum w = t.sum fun _ _ => 0 := sum_congr h
  rw [hz]
  simp [sum, rowSum]

theorem sum_add (t : Table κ ρ) (w w' : κ → ρ → M) :
    t.sum (fun k r => w k r + w' k r) = t.sum w + t.sum w' := by
  unfold sum rowSum
  induction t.rows with
  | nil => simp
  | cons p l ih => simp only [List.map_cons, List.sum_cons, ih]; abel

/-- The keys of the rows. -/
def keys (t : Table κ ρ) : List κ := t.rows.map Prod.fst

theorem keys_sorted (t : Table κ ρ) : t.keys.Pairwise (· < ·) := by
  have hs : t.rows.Pairwise fun p q => p.1 < q.1 := t.sorted
  exact hs.map _ fun p q h => h

theorem keys_nodup (t : Table κ ρ) : t.keys.Nodup := t.keys_sorted.imp ne_of_lt

theorem mem_keys {t : Table κ ρ} {k : κ} : k ∈ t.keys ↔ ∃ r, t.find k = some r := by
  simp only [keys, List.mem_map, Prod.exists, mem_rows, exists_and_right, exists_eq_right]

/-- A replaced row has the same key. -/
theorem keys_put_of_find {t : Table κ ρ} {k : κ} {r : ρ} (r' : ρ) (h : t.find k = some r) :
    (t.put k r').keys = t.keys := keys_putRow r' t.sorted h

theorem val_eq_zero {t : Table κ ρ} {w : κ → ρ → M} {k : κ} (h : k ∉ t.keys) : t.val w k = 0 :=
  val_of_none (Option.eq_none_iff_forall_ne_some.mpr fun r hr => h (mem_keys.mpr ⟨r, hr⟩))

theorem sum_eq_keys (t : Table κ ρ) (w : κ → ρ → M) : t.sum w = (t.keys.map (t.val w)).sum := by
  unfold sum rowSum keys
  rw [List.map_map]
  refine congrArg List.sum (List.map_congr_left fun p hp => ?_)
  exact (val_of_find (mem_rows.mp hp)).symm

/-- A sum is determined by the weights of the keys. -/
theorem sum_eq_of_val {ρ' : Type} {t : Table κ ρ} {t' : Table κ ρ'} {w : κ → ρ → M}
    {w' : κ → ρ' → M} (h : ∀ k, t.val w k = t'.val w' k) : t.sum w = t'.sum w' := by
  have key : ∀ {α : Type} (u : Table κ α) (v : κ → α → M) (S : Finset κ), u.keys.toFinset ⊆ S →
      u.sum v = ∑ k ∈ S, u.val v k := by
    intro α u v S hS
    rw [sum_eq_keys, ← List.sum_toFinset _ u.keys_nodup]
    refine Finset.sum_subset hS fun k _ hk => val_eq_zero fun hm => hk (List.mem_toFinset.mpr hm)
  rw [key t w (t.keys.toFinset ∪ t'.keys.toFinset) Finset.subset_union_left,
    key t' w' (t.keys.toFinset ∪ t'.keys.toFinset) Finset.subset_union_right]
  exact Finset.sum_congr rfl fun k _ => h k

end Sum

/-! ### The number of rows -/

/-- The number of rows. -/
def size (t : Table κ ρ) : Nat := t.rows.length

@[simp] theorem size_empty : (∅ : Table κ ρ).size = 0 := rfl

/-- A count is a sum of ones. -/
theorem size_eq_sum (t : Table κ ρ) : (t.size : Int) = t.sum fun _ _ => 1 := by
  unfold size sum rowSum
  simp

theorem size_put_of_none {t : Table κ ρ} {k : κ} (r : ρ) (h : t.find k = none) :
    (t.put k r).size = t.size + 1 := by
  have hs := sum_put t (fun _ _ => (1 : Int)) k r
  rw [val_of_none h, ← size_eq_sum, ← size_eq_sum] at hs
  omega

theorem size_erase_of_find {t : Table κ ρ} {k : κ} {r : ρ} (h : t.find k = some r) :
    (t.erase k).size + 1 = t.size := by
  have hs := sum_erase t (fun _ _ => (1 : Int)) k
  rw [val_of_find h, ← size_eq_sum, ← size_eq_sum] at hs
  omega

/-- A sum of integer weights that are at most those of another weight. -/
theorem sum_le {t : Table κ ρ} {w w' : κ → ρ → Int}
    (h : ∀ k r, t.find k = some r → w k r ≤ w' k r) : t.sum w ≤ t.sum w' := by
  have key : ∀ l : List (κ × ρ), (∀ p ∈ l, w p.1 p.2 ≤ w' p.1 p.2) → rowSum w l ≤ rowSum w' l := by
    intro l
    induction l with
    | nil => intro _; exact le_refl _
    | cons p l ih =>
      intro hl
      have h1 := hl p (by simp)
      have h2 := ih fun q hq => hl q (by simp [hq])
      simp only [rowSum, List.map_cons, List.sum_cons] at h2 ⊢
      omega
  exact key _ fun p hp => h p.1 p.2 (mem_rows.mp hp)

theorem sum_nonneg {t : Table κ ρ} {w : κ → ρ → Int}
    (h : ∀ k r, t.find k = some r → 0 ≤ w k r) : 0 ≤ t.sum w := by
  have := sum_le (t := t) (w := fun _ _ => 0) h
  rwa [sum_zero fun _ _ _ => rfl] at this

/-- One row's weight is at most the sum of weights that are not negative. -/
theorem le_sum {t : Table κ ρ} {w : κ → ρ → Int} (hw : ∀ k r, t.find k = some r → 0 ≤ w k r)
    {k : κ} {r : ρ} (h : t.find k = some r) : w k r ≤ t.sum w := by
  have hs := sum_erase t w k
  rw [val_of_find h] at hs
  have hn : 0 ≤ (t.erase k).sum w := sum_nonneg fun k' r' h' => by
    rw [find_erase] at h'
    split at h'
    · cases h'
    · exact hw k' r' h'
  omega

end Table

/-! ## Scoped tables -/

/-- One table for each scope; a scope without rows has the empty table. -/
structure Scoped (σ κ ρ : Type) [LinearOrder σ] [LinearOrder κ] where
  tables : Table σ (Table κ ρ)

namespace Scoped

variable [LinearOrder σ] [LinearOrder κ]

instance : EmptyCollection (Scoped σ κ ρ) := ⟨⟨∅⟩⟩

instance : Inhabited (Scoped σ κ ρ) := ⟨∅⟩

/-- The table of a scope. -/
def scope (t : Scoped σ κ ρ) (s : σ) : Table κ ρ := (t.tables.find s).getD ∅

/-- The row of key `k` in scope `s`. -/
def find (t : Scoped σ κ ρ) (s : σ) (k : κ) : Option ρ := (t.scope s).find k

/-- Replaces the table of a scope. -/
def setScope (t : Scoped σ κ ρ) (s : σ) (tb : Table κ ρ) : Scoped σ κ ρ := ⟨t.tables.put s tb⟩

/-- The row `r` for key `k` in scope `s`. -/
def put (t : Scoped σ κ ρ) (s : σ) (k : κ) (r : ρ) : Scoped σ κ ρ :=
  t.setScope s ((t.scope s).put k r)

/-- No row for key `k` in scope `s`. -/
def erase (t : Scoped σ κ ρ) (s : σ) (k : κ) : Scoped σ κ ρ := t.setScope s ((t.scope s).erase k)

@[simp] theorem scope_empty (s : σ) : (∅ : Scoped σ κ ρ).scope s = ∅ := rfl

@[simp] theorem find_empty (s : σ) (k : κ) : (∅ : Scoped σ κ ρ).find s k = none := rfl

theorem scope_setScope (t : Scoped σ κ ρ) (s s' : σ) (tb : Table κ ρ) :
    (t.setScope s tb).scope s' = if s = s' then tb else t.scope s' := by
  simp only [scope, setScope, Table.find_put]
  split <;> rfl

@[simp] theorem scope_setScope_self (t : Scoped σ κ ρ) (s : σ) (tb : Table κ ρ) :
    (t.setScope s tb).scope s = tb := by
  simp [scope_setScope]

theorem find_setScope (t : Scoped σ κ ρ) (s s' : σ) (tb : Table κ ρ) (k : κ) :
    (t.setScope s tb).find s' k = if s = s' then tb.find k else t.find s' k := by
  unfold find; rw [scope_setScope]; split <;> rfl

/-- The table of a scope, where there is a new one. -/
def update (t : Scoped σ κ ρ) (s : σ) (o : Option (Table κ ρ)) : Scoped σ κ ρ := ⟨t.tables.update s o⟩

theorem scope_update_ne (t : Scoped σ κ ρ) {s s' : σ} (o : Option (Table κ ρ)) (h : s ≠ s') :
    (t.update s o).scope s' = t.scope s' :=
  congrArg (fun o => o.getD ∅) (Table.find_update_ne t.tables o h)

theorem update_comm (t : Scoped σ κ ρ) {s s' : σ} (o o' : Option (Table κ ρ)) (h : s ≠ s') :
    (t.update s o).update s' o' = (t.update s' o').update s o :=
  congrArg Scoped.mk (Table.update_comm t.tables o o' h)

theorem put_put_update (t : Scoped σ κ ρ) (s : σ) (k k' : κ) (r r' : ρ) :
    (t.put s k r).put s k' r' = t.update s (some (((t.scope s).put k r).put k' r')) := by
  unfold put
  rw [scope_setScope_self]
  unfold setScope
  rw [Table.put_put]
  rfl

theorem find_put (t : Scoped σ κ ρ) (s s' : σ) (k k' : κ) (r : ρ) :
    (t.put s k r).find s' k' = if s = s' ∧ k = k' then some r else t.find s' k' := by
  unfold put
  rw [find_setScope]
  by_cases hs : s = s'
  · subst hs; simp [Table.find_put, find]
  · simp [hs]

@[simp] theorem find_put_self (t : Scoped σ κ ρ) (s : σ) (k : κ) (r : ρ) :
    (t.put s k r).find s k = some r := by
  simp [find_put]

theorem find_put_ne (t : Scoped σ κ ρ) {s s' : σ} {k k' : κ} (r : ρ) (h : ¬(s = s' ∧ k = k')) :
    (t.put s k r).find s' k' = t.find s' k' := by
  simp [find_put, h]

/-- A row of another scope. -/
theorem find_put_scope (t : Scoped σ κ ρ) {s s' : σ} {k k' : κ} (r : ρ) (h : s ≠ s') :
    (t.put s k r).find s' k' = t.find s' k' := find_put_ne t r fun e => h e.1

theorem put_put (t : Scoped σ κ ρ) (s : σ) (k : κ) (r r' : ρ) :
    (t.put s k r).put s k r' = t.put s k r' := by
  unfold put
  rw [scope_setScope_self, Table.put_put]
  unfold setScope
  rw [Table.put_put]

theorem find_erase (t : Scoped σ κ ρ) (s s' : σ) (k k' : κ) :
    (t.erase s k).find s' k' = if s = s' ∧ k = k' then none else t.find s' k' := by
  unfold erase
  rw [find_setScope]
  by_cases hs : s = s'
  · subst hs; simp [Table.find_erase, find]
  · simp [hs]

@[simp] theorem find_erase_self (t : Scoped σ κ ρ) (s : σ) (k : κ) :
    (t.erase s k).find s k = none := by
  simp [find_erase]

theorem find_erase_ne (t : Scoped σ κ ρ) {s s' : σ} {k k' : κ} (h : ¬(s = s' ∧ k = k')) :
    (t.erase s k).find s' k' = t.find s' k' := by
  simp [find_erase, h]

/-- Every row of every scope has property `P`. -/
def All (t : Scoped σ κ ρ) (P : σ → κ → ρ → Prop) : Prop := ∀ s k r, t.find s k = some r → P s k r

theorem all_empty (P : σ → κ → ρ → Prop) : (∅ : Scoped σ κ ρ).All P := fun _ _ _ h => by cases h

theorem All.scope {t : Scoped σ κ ρ} {P : σ → κ → ρ → Prop} (h : t.All P) (s : σ) :
    (t.scope s).All (P s) := fun k r hr => h s k r hr

theorem All.setScope {t : Scoped σ κ ρ} {P : σ → κ → ρ → Prop} (h : t.All P) {s : σ}
    {tb : Table κ ρ} (ht : tb.All (P s)) : (t.setScope s tb).All P := fun s' k r hr => by
  rw [find_setScope] at hr
  split at hr
  · rename_i e
    subst e; exact ht k r hr
  · exact h s' k r hr

theorem All.put {t : Scoped σ κ ρ} {P : σ → κ → ρ → Prop} (h : t.All P) {s : σ} {k : κ} {r : ρ}
    (hr : P s k r) : (t.put s k r).All P := h.setScope ((h.scope s).put hr)

theorem All.imp {t : Scoped σ κ ρ} {P Q : σ → κ → ρ → Prop} (h : t.All P)
    (hPQ : ∀ s k r, P s k r → Q s k r) : t.All Q := fun s k r hr => hPQ s k r (h s k r hr)

section Sum

variable {M : Type} [AddCommGroup M]

/-- The sum of the weights of all rows of all scopes. -/
def sum (t : Scoped σ κ ρ) (w : σ → κ → ρ → M) : M := t.tables.sum fun s tb => tb.sum (w s)

/-- The weight of one row: zero without one. -/
def val (t : Scoped σ κ ρ) (w : σ → κ → ρ → M) (s : σ) (k : κ) : M := (t.scope s).val (w s) k

@[simp] theorem sum_empty (w : σ → κ → ρ → M) : (∅ : Scoped σ κ ρ).sum w = 0 := rfl

theorem val_of_find {t : Scoped σ κ ρ} {w : σ → κ → ρ → M} {s : σ} {k : κ} {r : ρ}
    (h : t.find s k = some r) : t.val w s k = w s k r := Table.val_of_find h

theorem val_of_none {t : Scoped σ κ ρ} {w : σ → κ → ρ → M} {s : σ} {k : κ}
    (h : t.find s k = none) : t.val w s k = 0 := Table.val_of_none h

theorem val_eq_getD {t : Scoped σ κ ρ} {w : σ → κ → ρ → M} {s : σ} {k : κ} {d : ρ}
    (hd : w s k d = 0) : t.val w s k = w s k ((t.find s k).getD d) := Table.val_eq_getD hd

theorem sum_setScope (t : Scoped σ κ ρ) (w : σ → κ → ρ → M) (s : σ) (tb : Table κ ρ) :
    (t.setScope s tb).sum w = t.sum w - (t.scope s).sum (w s) + tb.sum (w s) := by
  simp only [sum, setScope, Table.sum_put, Table.val, scope]
  cases t.tables.find s <;> simp

theorem sum_put (t : Scoped σ κ ρ) (w : σ → κ → ρ → M) (s : σ) (k : κ) (r : ρ) :
    (t.put s k r).sum w = t.sum w - t.val w s k + w s k r := by
  simp only [put, sum_setScope, Table.sum_put, val]; abel

theorem sum_erase (t : Scoped σ κ ρ) (w : σ → κ → ρ → M) (s : σ) (k : κ) :
    (t.erase s k).sum w = t.sum w - t.val w s k := by
  simp only [erase, sum_setScope, Table.sum_erase, val]; abel

theorem sum_congr {t : Scoped σ κ ρ} {w w' : σ → κ → ρ → M}
    (h : ∀ s k r, t.find s k = some r → w s k r = w' s k r) : t.sum w = t.sum w' := by
  refine Table.sum_congr fun s tb hs => Table.sum_congr fun k r hr => h s k r ?_
  simpa [find, scope, hs] using hr

theorem sum_zero {t : Scoped σ κ ρ} {w : σ → κ → ρ → M}
    (h : ∀ s k r, t.find s k = some r → w s k r = 0) : t.sum w = 0 := by
  refine Table.sum_zero fun s tb hs => Table.sum_zero fun k r hr => h s k r ?_
  simpa [find, scope, hs] using hr

theorem sum_add (t : Scoped σ κ ρ) (w w' : σ → κ → ρ → M) :
    t.sum (fun s k r => w s k r + w' s k r) = t.sum w + t.sum w' := by
  simp only [sum, Table.sum_add]

/-- The sum over all scopes of the weights of the rows of one key. -/
def keySum (t : Scoped σ κ ρ) (w : ρ → M) (k : κ) : M :=
  t.sum fun _ k' r => if k' = k then w r else 0

@[simp] theorem keySum_empty (w : ρ → M) (k : κ) : (∅ : Scoped σ κ ρ).keySum w k = 0 := rfl

/-- A key without rows. -/
theorem keySum_zero {t : Scoped σ κ ρ} {k : κ} (w : ρ → M) (h : ∀ s, t.find s k = none) :
    t.keySum w k = 0 := by
  refine sum_zero fun s k' r hr => if_neg ?_
  rintro rfl
  rw [h s] at hr
  cases hr

theorem keySum_val (t : Scoped σ κ ρ) (w : ρ → M) (s : σ) (k k' : κ) :
    t.val (fun _ k r => if k = k' then w r else 0) s k =
      if k = k' then (t.find s k).elim 0 w else 0 := by
  unfold val Table.val find
  cases (t.scope s).find k <;> simp

/-- The old row leaves the sum of its key and the new one enters it. -/
theorem keySum_put (t : Scoped σ κ ρ) (w : ρ → M) (s : σ) (k k' : κ) (r : ρ) :
    (t.put s k r).keySum w k' =
      t.keySum w k' + if k = k' then w r - (t.find s k).elim 0 w else 0 := by
  unfold keySum
  rw [sum_put, keySum_val]
  split <;> abel

theorem keySum_erase (t : Scoped σ κ ρ) (w : ρ → M) (s : σ) (k k' : κ) :
    (t.erase s k).keySum w k' =
      t.keySum w k' - if k = k' then (t.find s k).elim 0 w else 0 := by
  unfold keySum
  rw [sum_erase, keySum_val]

end Sum

theorem sum_le {t : Scoped σ κ ρ} {w w' : σ → κ → ρ → Int}
    (h : ∀ s k r, t.find s k = some r → w s k r ≤ w' s k r) : t.sum w ≤ t.sum w' := by
  refine Table.sum_le fun s tb hs => Table.sum_le fun k r hr => h s k r ?_
  simpa [find, scope, hs] using hr

theorem sum_nonneg {t : Scoped σ κ ρ} {w : σ → κ → ρ → Int}
    (h : ∀ s k r, t.find s k = some r → 0 ≤ w s k r) : 0 ≤ t.sum w := by
  have := sum_le (t := t) (w := fun _ _ _ => 0) h
  rwa [sum_zero fun _ _ _ _ => rfl] at this

theorem keySum_nonneg {t : Scoped σ κ ρ} {w : ρ → Int} {k : κ}
    (h : ∀ s r, t.find s k = some r → 0 ≤ w r) : 0 ≤ t.keySum w k := by
  apply sum_nonneg
  intro s k' r hr
  split
  · subst_vars
    exact h s r hr
  · exact le_refl _

/-- One row's weight is at most the sum of weights that are not negative. -/
theorem le_sum {t : Scoped σ κ ρ} {w : σ → κ → ρ → Int}
    (hw : ∀ s k r, t.find s k = some r → 0 ≤ w s k r) {s : σ} {k : κ} {r : ρ}
    (h : t.find s k = some r) : w s k r ≤ t.sum w := by
  have hs := sum_erase t w s k
  rw [val_of_find h] at hs
  have hn : 0 ≤ (t.erase s k).sum w := sum_nonneg fun s' k' r' h' => by
    rw [find_erase] at h'
    split at h'
    · cases h'
    · exact hw s' k' r' h'
  omega

/-- The sum of one scope is at most the sum of weights that are not negative. -/
theorem scope_sum_le {t : Scoped σ κ ρ} {w : σ → κ → ρ → Int}
    (hw : ∀ s k r, t.find s k = some r → 0 ≤ w s k r) (s : σ) :
    (t.scope s).sum (w s) ≤ t.sum w := by
  have hs := sum_setScope t w s ∅
  rw [Table.sum_empty] at hs
  have hn : 0 ≤ (t.setScope s ∅).sum w := sum_nonneg fun s' k' r' h' => by
    rw [find_setScope] at h'
    split at h'
    · cases h'
    · exact hw s' k' r' h'
  omega

/-- The sums of two scopes are at most the sum of weights that are not negative. -/
theorem two_scopes_le {t : Scoped σ κ ρ} {w : σ → κ → ρ → Int}
    (hw : ∀ s k r, t.find s k = some r → 0 ≤ w s k r) {s s' : σ} (hne : s ≠ s') :
    (t.scope s).sum (w s) + (t.scope s').sum (w s') ≤ t.sum w := by
  have hs := sum_setScope t w s ∅
  rw [Table.sum_empty] at hs
  have hrest : (t.scope s').sum (w s') ≤ (t.setScope s ∅).sum w := by
    have hle := scope_sum_le (t := t.setScope s ∅) (w := w) (fun s₁ k r h => ?_) s'
    · rwa [scope_setScope, if_neg hne] at hle
    · rw [find_setScope] at h
      split at h
      · cases h
      · exact hw s₁ k r h
  omega

end Scoped

end Keyed
