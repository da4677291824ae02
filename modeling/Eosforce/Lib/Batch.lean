import Mathlib.Data.List.Basic

/-!
# Batches

A buffer to which elements are added one by one, and which is emptied into a batch when it is full.

* `Batching`, `Batching.add`: the full batches so far and the buffer.
* `Full n b`: every batch has `n` elements, and the buffer has fewer.
* `Batching.content`: what the batches and the buffer hold together.
* `Batching.close`: the batches, with the rest of the buffer as the last one. `close_flatten`: they
  hold what was added; `close_length`: how many they are.
-/

namespace Batches

variable {α : Type} {n : Nat}

/-- The batches that are full, and the buffer. -/
structure Batching (α : Type) where
  batches : List (List α) := []
  buffer : List α := []

/-- An element is added, and a full buffer becomes a batch. -/
def Batching.add (n : Nat) (b : Batching α) (a : α) : Batching α :=
  if n ≤ (b.buffer ++ [a]).length then ⟨b.batches ++ [b.buffer ++ [a]], []⟩
  else ⟨b.batches, b.buffer ++ [a]⟩

/-- The rest of the buffer becomes the last batch. -/
def Batching.close (b : Batching α) : List (List α) :=
  if 0 < b.buffer.length then b.batches ++ [b.buffer] else b.batches

/-- What was added. -/
def Batching.content (b : Batching α) : List α := b.batches.flatten ++ b.buffer

/-- The batches are full, and the buffer is not. -/
structure Full (n : Nat) (b : Batching α) : Prop where
  batches : ∀ l ∈ b.batches, l.length = n
  buffer : b.buffer.length < n

theorem full_empty (hn : 0 < n) : Full n (⟨[], []⟩ : Batching α) := ⟨by simp, hn⟩

/-- An element that does not fill the buffer, or one that does. -/
theorem Full.add_eq {b : Batching α} (h : Full n b) (a : α) :
    (b.buffer.length + 1 < n ∧ b.add n a = ⟨b.batches, b.buffer ++ [a]⟩) ∨
      (b.buffer.length + 1 = n ∧ b.add n a = ⟨b.batches ++ [b.buffer ++ [a]], []⟩) := by
  have hlt := h.buffer
  unfold Batching.add
  rw [List.length_append, List.length_singleton]
  by_cases hfull : n ≤ b.buffer.length + 1
  · exact .inr ⟨by omega, if_pos hfull⟩
  · exact .inl ⟨by omega, if_neg hfull⟩

theorem Full.add {b : Batching α} (h : Full n b) (a : α) : Full n (b.add n a) := by
  rcases h.add_eq a with ⟨hlt, e⟩ | ⟨hlen, e⟩
  · rw [e]
    exact ⟨h.batches, by simpa using hlt⟩
  · rw [e]
    refine ⟨fun l hl => ?_, by simp; omega⟩
    rcases List.mem_append.mp hl with hl | hl
    · exact h.batches l hl
    · rw [List.mem_singleton.mp hl, List.length_append, List.length_singleton, hlen]

@[simp] theorem content_add (b : Batching α) (a : α) : (b.add n a).content = b.content ++ [a] := by
  unfold Batching.add Batching.content
  split <;> simp

/-- The batches hold what was added, in its order. -/
theorem close_flatten (b : Batching α) : b.close.flatten = b.content := by
  unfold Batching.close Batching.content
  by_cases h : 0 < b.buffer.length
  · rw [if_pos h, List.flatten_append, List.flatten_singleton]
  · rw [if_neg h, List.length_eq_zero_iff.mp (Nat.eq_zero_of_not_pos h), List.append_nil]

/-- No batch is empty or more than full. -/
theorem Full.close {b : Batching α} (h : Full n b) :
    ∀ l ∈ b.close, 0 < l.length ∧ l.length ≤ n := by
  have hlt := h.buffer
  have hfull : ∀ l ∈ b.batches, 0 < l.length ∧ l.length ≤ n := fun l hl => by
    rw [h.batches l hl]
    exact ⟨Nat.zero_lt_of_lt hlt, Nat.le_refl n⟩
  unfold Batching.close
  by_cases hb : 0 < b.buffer.length
  · rw [if_pos hb]
    intro l hl
    rcases List.mem_append.mp hl with hl | hl
    · exact hfull l hl
    · rw [List.mem_singleton.mp hl]
      exact ⟨hb, Nat.le_of_lt hlt⟩
  · rw [if_neg hb]
    exact hfull

/-- Full batches hold `n` elements each. -/
theorem Full.batches_length {b : Batching α} (h : Full n b) :
    b.batches.flatten.length = n * b.batches.length := by
  rw [List.length_flatten, List.map_congr_left (g := fun _ => n) h.batches]
  simp [Nat.mul_comm]

/-- There are as few batches as their size allows. -/
theorem Full.close_length {b : Batching α} (h : Full n b) :
    b.content.length ≤ n * b.close.length ∧ n * b.close.length < b.content.length + n := by
  have hlt := h.buffer
  unfold Batching.close Batching.content
  rw [List.length_append, h.batches_length]
  by_cases hb : 0 < b.buffer.length
  · rw [if_pos hb, List.length_append, List.length_singleton, Nat.mul_add, Nat.mul_one]
    omega
  · rw [if_neg hb]
    omega

end Batches
