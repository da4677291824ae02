import Mathlib.Data.List.Sort

/-!
# The first entries of a sorted list

The first `n` entries of a list, sorted by a relation, as entries come in one after the other.

* `top r n l`: what is kept of the entries `l`. Of entries that are equal for `r`, later ones come
  first.
* `top_concat`: to add an entry, insert it into what is kept, and keep `n`.
* `top_concat_of_full`: an entry that does not belong before the last one of `n` changes nothing.
* `top_before`: what is kept comes before what is left out.
-/

namespace Tops

variable {α : Type} {r : α → α → Prop} [DecidableRel r] {n : Nat} {l : List α} {x y : α}

/-- The first `n` entries of the list, sorted. -/
def top (r : α → α → Prop) [DecidableRel r] (n : Nat) (l : List α) : List α :=
  (l.reverse.insertionSort r).take n

@[simp] theorem top_nil : top r n [] = [] := List.take_nil

/-! ## One more entry -/

/-- An entry is inserted into the first `n` entries as it is into all of them. -/
theorem orderedInsert_take (x : α) (n : Nat) (l : List α) :
    ((l.take n).orderedInsert r x).take n = (l.orderedInsert r x).take n := by
  induction l generalizing n with
  | nil => rw [List.take_nil]
  | cons b l ih =>
    cases n with
    | zero => simp
    | succ n =>
      rw [List.take_succ_cons, List.orderedInsert_cons, List.orderedInsert_cons]
      split
      · cases n <;> simp [List.take_take]
      · rw [List.take_succ_cons, List.take_succ_cons, ih]

theorem top_concat (l : List α) (x : α) :
    top r n (l ++ [x]) = ((top r n l).orderedInsert r x).take n := by
  unfold top
  rw [List.reverse_concat, List.insertionSort_cons, orderedInsert_take]

/-- An entry that belongs before no entry of the list is inserted at its end. -/
theorem orderedInsert_of_forall_not (h : ∀ b ∈ l, ¬r x b) : l.orderedInsert r x = l ++ [x] := by
  induction l with
  | nil => rfl
  | cons b l ih =>
    rw [List.orderedInsert_of_not_le r l (h b List.mem_cons_self),
      ih fun c hc => h c (List.mem_cons_of_mem b hc), List.cons_append]

/-! ## What is kept -/

theorem length_top (n : Nat) (l : List α) : (top r n l).length = min n l.length := by
  rw [top, List.length_take, List.length_insertionSort, List.length_reverse]

theorem mem_of_mem_top (h : x ∈ top r n l) : x ∈ l :=
  List.mem_reverse.mp ((List.mem_insertionSort r).mp (List.mem_of_mem_take h))

theorem nodup_map_top {β : Type} {f : α → β} (h : (l.map f).Nodup) :
    ((top r n l).map f).Nodup := by
  have hperm := (List.perm_insertionSort r l.reverse).trans l.reverse_perm
  exact ((hperm.map f).nodup_iff.mpr h).sublist ((List.take_sublist n _).map f)

section Sorted

variable [Std.Total r] [IsTrans α r]

theorem pairwise_top (n : Nat) (l : List α) : (top r n l).Pairwise r :=
  (List.pairwise_insertionSort r l.reverse).take

/-- What is kept comes before what is left out. -/
theorem top_before (hx : x ∈ top r n l) (hy : y ∈ l) (hout : y ∉ top r n l) : r x y := by
  have hmem : y ∈ l.reverse.insertionSort r :=
    (List.mem_insertionSort r).mpr (List.mem_reverse.mpr hy)
  have hsorted := List.pairwise_insertionSort r l.reverse
  rw [← List.take_append_drop n (l.reverse.insertionSort r)] at hmem hsorted
  refine (List.pairwise_append.mp hsorted).2.2 x hx y ?_
  exact (List.mem_append.mp hmem).resolve_left hout

/-- An entry that does not belong before the last one of `n` changes nothing. -/
theorem top_concat_of_full (hfull : n ≤ (top r n l).length) (hlast : y ∈ (top r n l).getLast?)
    (hx : ¬r x y) : top r n (l ++ [x]) = top r n l := by
  obtain ⟨init, hinit⟩ := List.getLast?_eq_some_iff.mp hlast
  have hafter : ∀ b ∈ top r n l, ¬r x b := by
    intro b hb hxb
    have hsorted := pairwise_top (r := r) n l
    rw [hinit] at hb hsorted
    rcases List.mem_append.mp hb with hb | hb
    · have hby : r b y := (List.pairwise_append.mp hsorted).2.2 b hb y List.mem_cons_self
      exact hx (Trans.trans hxb hby)
    · exact hx (List.mem_singleton.mp hb ▸ hxb)
  rw [top_concat, orderedInsert_of_forall_not hafter, List.take_append_of_le_length hfull]
  unfold top
  rw [List.take_take, min_self]

end Sorted

end Tops
