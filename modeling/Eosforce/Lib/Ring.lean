import Mathlib.Data.List.Rotate

/-!
# Rings of the last entries

A fixed number of slots that are written in turn, so that each new entry takes the place of the
oldest one.

* `recent n h`: the last `n` entries of a history.
* `IsRing l i h`: the slots `l`, of which slot `i` is the next, hold the last entries of `h`.
* `IsRing.push`: an entry written into the next slot is the newest of the history.
* `IsRing.newest`: the slot before the next one holds the newest entry, and so on backwards.
* `mem_recent_append`, `mem_recent_replicate`: what is recent was recent before, or is new; a
  history that was filled up has the recent entries that it has without.
-/

namespace Rings

variable {α : Type} {l h : List α} {i n : Nat}

/-- The last `n` entries of a history. -/
def recent (n : Nat) (h : List α) : List α := h.drop (h.length - n)

theorem recent_push (hn : 0 < n) (hle : n ≤ h.length) (x : α) :
    recent n (h ++ [x]) = (recent n h).tail ++ [x] := by
  have hlen : (h ++ [x]).length - n = h.length - n + 1 := by
    rw [List.length_append, List.length_singleton]
    omega
  unfold recent
  rw [hlen, List.drop_append_of_le_length (by omega), List.tail_drop]

/-- What is recent was recent before, or is new. -/
theorem mem_recent_append {h' : List α} {a : α} (ha : a ∈ recent n (h ++ h')) :
    a ∈ recent n h ∨ a ∈ h' := by
  rw [recent, List.drop_append, List.mem_append] at ha
  rcases ha with ha | ha
  · refine .inl (List.drop_subset_drop_left h ?_ ha)
    rw [List.length_append]
    omega
  · exact .inr (List.mem_of_mem_drop ha)

/-- Copies of another entry at the start are not what makes an entry recent. -/
theorem mem_recent_replicate {a b : α} (hab : a ≠ b) (m : Nat) :
    a ∈ recent n (List.replicate m b ++ h) ↔ a ∈ recent n h := by
  have hlen : m + h.length - n - m = h.length - n := by omega
  unfold recent
  rw [List.length_append, List.length_replicate, List.drop_append, List.length_replicate, hlen,
    List.mem_append, List.drop_replicate, List.mem_replicate]
  exact or_iff_right fun hb => hab hb.2

/-- The slots hold the last entries of the history, from the next slot on. -/
structure IsRing (l : List α) (i : Nat) (h : List α) : Prop where
  slot : i < l.length
  full : l.length ≤ h.length
  entries : l.rotate i = recent l.length h

/-- After a write of the next slot, the ring begins one slot later. -/
theorem rotate_set (hi : i < l.length) (x : α) :
    (l.set i x).rotate (i + 1) = (l.rotate i).tail ++ [x] := by
  have htake : (l.take i).length = i := List.length_take_of_le hi.le
  rw [List.rotate_eq_drop_append_take (by rw [List.length_set]; omega),
    List.rotate_eq_drop_append_take hi.le, List.drop_eq_getElem_cons hi,
    List.set_eq_take_append_cons_drop, if_pos hi, List.cons_append, List.tail_cons,
    List.append_assoc]
  congr 1
  · rw [List.drop_append, htake, List.drop_eq_nil_of_le (by omega), Nat.add_sub_cancel_left]
    rfl
  · rw [List.take_append, htake, List.take_of_length_le (by omega), Nat.add_sub_cancel_left]
    rfl

/-- A ring of equal entries. -/
theorem IsRing.replicate (hn : 0 < n) (a : α) :
    IsRing (List.replicate n a) 0 (List.replicate n a) where
  slot := by rwa [List.length_replicate]
  full := le_refl _
  entries := by rw [List.rotate_zero, recent, Nat.sub_self, List.drop_zero]

theorem IsRing.push (hr : IsRing l i h) (x : α) :
    IsRing (l.set i x) ((i + 1) % l.length) (h ++ [x]) where
  slot := by
    rw [List.length_set]
    exact Nat.mod_lt _ (Nat.zero_lt_of_lt hr.slot)
  full := by
    rw [List.length_set, List.length_append]
    exact hr.full.trans (Nat.le_add_right _ _)
  entries := by
    have hmod := List.rotate_mod (l.set i x) (i + 1)
    rw [List.length_set] at hmod ⊢
    rw [hmod, rotate_set hr.slot, hr.entries, recent_push (Nat.zero_lt_of_lt hr.slot) hr.full]

/-- The entry `k` slots before the last written one is the `k`-th before the newest. -/
theorem IsRing.newest (hr : IsRing l i h) {k : Nat} (hk : k < l.length) :
    l[(i + l.length - 1 - k) % l.length]? = h.reverse[k]? := by
  have hfull := hr.full
  have hslot : l.length - 1 - k + i = i + l.length - 1 - k := by omega
  have hold : h.length - l.length + (l.length - 1 - k) = h.length - 1 - k := by omega
  have hrot := List.getElem?_rotate (l := l) (n := i) (m := l.length - 1 - k) (by omega)
  rw [hr.entries, recent, List.getElem?_drop, hslot, hold] at hrot
  rw [← hrot, List.getElem?_reverse (by omega)]

theorem IsRing.mem_iff (hr : IsRing l i h) {a : α} : a ∈ l ↔ a ∈ recent l.length h := by
  rw [← hr.entries, List.mem_rotate]

end Rings
