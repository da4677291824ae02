import Eosforce.Lib.Table

/-!
# Reading a table page by page

A list of rows in key order is read in pages: a page has the first rows from a bound on, and the
bound of the next page is the key of the last row of this one, so each page but the first repeats a
row.

* `entriesFrom`, `page`, `more`: the rows from a bound on, the first `n` of them, and whether there
  are others.
* `ReadUpTo l k s got`: `got` has the rows before the bound `k` and `s` rows from it on.
* `ReadUpTo.next`: a page with others after it moves the bound by all its rows but one.
* `ReadUpTo.last`: after the last page, all rows have been read.
-/

namespace Pages

open Keyed

/-- What is left of a page without its first `s` elements goes on after them. -/
theorem take_append_page {α : Type} {j n s : Nat} (hsn : s ≤ n) (l : List α) :
    l.take (j + s) ++ ((l.drop j).take n).drop s = l.take (j + n) := by
  obtain ⟨d, rfl⟩ := Nat.exists_eq_add_of_le hsn
  rw [List.drop_take, List.drop_drop, Nat.add_sub_cancel_left, ← List.take_add, Nat.add_assoc]

variable {κ ρ : Type} [LinearOrder κ] {k : κ} {l : List (κ × ρ)} {n s : Nat}

/-- The rows from a key on. -/
def entriesFrom (k : κ) (l : List (κ × ρ)) : List (κ × ρ) := l.filter fun p => decide (k ≤ p.1)

/-- The first `n` rows from a key on. -/
def page (n : Nat) (k : κ) (l : List (κ × ρ)) : List (κ × ρ) := (entriesFrom k l).take n

/-- Rows remain after the first `n` from a key on. -/
def more (n : Nat) (k : κ) (l : List (κ × ρ)) : Bool := decide (n < (entriesFrom k l).length)

theorem mem_of_mem_page {p : κ × ρ} (h : p ∈ page n k l) : p ∈ l :=
  (List.mem_filter.mp (List.mem_of_mem_take h)).1

theorem entriesFrom_all (h : ∀ p ∈ l, k ≤ p.1) : entriesFrom k l = l :=
  List.filter_eq_self.mpr fun p hp => decide_eq_true (h p hp)

/-- The rows from the key of a row on are that row and the ones after it. -/
theorem entriesFrom_getElem (hs : SortedKeys l) {i : Nat} (hi : i < l.length) :
    entriesFrom l[i].1 l = l.drop i := by
  have hbefore : (l.take i).filter (fun p => decide (l[i].1 ≤ p.1)) = [] := by
    rw [List.filter_eq_nil_iff]
    intro p hp
    obtain ⟨j, hj, rfl⟩ := List.mem_take_iff_getElem.mp hp
    simp only [decide_eq_true_eq, not_le]
    exact List.pairwise_iff_getElem.mp hs j i (by omega) hi (by omega)
  have hafter : (l.drop i).filter (fun p => decide (l[i].1 ≤ p.1)) = l.drop i := by
    rw [List.filter_eq_self]
    intro p hp
    obtain ⟨j, hj, rfl⟩ := List.mem_drop_iff_getElem.mp hp
    apply decide_eq_true
    rcases Nat.eq_zero_or_pos j with rfl | hpos
    · exact le_rfl
    · exact (List.pairwise_iff_getElem.mp hs i (i + j) hi (by omega) (by omega)).le
  unfold entriesFrom
  calc l.filter _
      = (l.take i ++ l.drop i).filter (fun p => decide (l[i].1 ≤ p.1)) := by
        rw [List.take_append_drop]
    _ = l.drop i := by rw [List.filter_append, hbefore, hafter, List.nil_append]

/-- The rows before the bound have been read, and `s` rows from the bound on. -/
def ReadUpTo (l : List (κ × ρ)) (k : κ) (s : Nat) (got : List (κ × ρ)) : Prop :=
  ∃ j, entriesFrom k l = l.drop j ∧ got = l.take (j + s)

theorem ReadUpTo.start (h : ∀ p ∈ l, k ≤ p.1) : ReadUpTo l k 0 [] :=
  ⟨0, entriesFrom_all h, rfl⟩

/-- **Step lemma.** A page with others after it has a last row, at which the next page starts. -/
theorem ReadUpTo.next {got : List (κ × ρ)} (h : ReadUpTo l k s got) (hs : SortedKeys l)
    (hsn : s ≤ n) (hn : 0 < n) (hm : more n k l = true) :
    ∃ p, (page n k l).getLast? = some p ∧ ReadUpTo l p.1 1 (got ++ (page n k l).drop s) ∧
      (entriesFrom p.1 l).length + (n - 1) = (entriesFrom k l).length := by
  obtain ⟨j, hj, rfl⟩ := h
  simp only [more, hj, List.length_drop, decide_eq_true_eq] at hm
  have hi : j + (n - 1) < l.length := by omega
  have hp := entriesFrom_getElem hs hi
  refine ⟨l[j + (n - 1)], ?_, ⟨j + (n - 1), hp, ?_⟩, ?_⟩
  · rw [page, hj, List.getLast?_take, if_neg hn.ne', List.getElem?_drop, List.getElem?_eq_getElem hi]
    rfl
  · rw [page, hj, take_append_page hsn]
    congr 1
    omega
  · rw [hp, hj, List.length_drop, List.length_drop]
    omega

/-- With the last page, all rows have been read. -/
theorem ReadUpTo.last {got : List (κ × ρ)} (h : ReadUpTo l k s got) (hm : more n k l = false) :
    got ++ (page n k l).drop s = l := by
  obtain ⟨j, hj, rfl⟩ := h
  simp only [more, decide_eq_false_iff_not, not_lt] at hm
  rw [page, List.take_of_length_le hm, hj, List.drop_drop, List.take_append_drop]

end Pages
