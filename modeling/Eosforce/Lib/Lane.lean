import Mathlib.Data.List.Basic
import Mathlib.Data.List.Perm.Basic

/-!
# Queues in one list

A list of entries with keys: a new entry goes to the end, and of a key the first entry is taken
away. Whatever happens to the other keys, the entries of one key are a queue.

* `lane key k l`: the entries of key `k`, in order.
* `pop key k l`: the list without the first entry of key `k`. `lane_pop`: it leaves the lane of
  `k` without its first entry and every other lane as it was; `perm_pop`: one key leaves.
* `Served key l ops m`: the operations lead from list `l` to list `m`, and each `pop` finds an entry.
* `Served.lane`: then a lane is what it was with what was pushed to it, less as many entries from
  its front as were popped.
-/

namespace Lanes

variable {κ α : Type} [DecidableEq κ] {key : α → κ} {k k' : κ} {l m : List α}

/-- The entries of a key, in order. -/
def lane (key : α → κ) (k : κ) (l : List α) : List α := l.filter fun a => key a = k

/-- The list without the first entry of a key. -/
def pop (key : α → κ) (k : κ) (l : List α) : List α := l.eraseP fun a => key a = k

@[simp] theorem lane_nil : lane key k [] = [] := rfl

theorem lane_append : lane key k (l ++ m) = lane key k l ++ lane key k m := List.filter_append _ _

theorem lane_singleton (a : α) : lane key k [a] = if key a = k then [a] else [] := by
  unfold lane
  by_cases h : key a = k
  · rw [if_pos h, List.filter_cons_of_pos (by simpa using h), List.filter_nil]
  · rw [if_neg h, List.filter_cons_of_neg (by simpa using h), List.filter_nil]

theorem lane_ne_nil : lane key k l ≠ [] ↔ ∃ a ∈ l, key a = k := by
  simp [lane, List.filter_eq_nil_iff]

/-- A pop takes the first entry of its own lane, and nothing of the others. -/
theorem lane_pop : lane key k' (pop key k l) =
    if k = k' then (lane key k' l).tail else lane key k' l := by
  induction l with
  | nil => split <;> rfl
  | cons a l ih =>
    unfold pop lane at ih ⊢
    by_cases ha : key a = k
    · rw [List.eraseP_cons_of_pos (by simpa using ha), List.filter_cons]
      by_cases hk : k = k'
      · simp [ha, hk]
      · simp [ha, hk]
    · rw [List.eraseP_cons_of_neg (by simpa using ha), List.filter_cons, List.filter_cons, ih]
      by_cases hk : k = k'
      · subst hk
        simp [ha]
      · simp only [if_neg hk]

/-- A pop of entries that other entries stand for. -/
theorem pop_map {β : Type} (f : β → α) (l : List β) :
    pop key k (l.map f) = (pop (fun b => key (f b)) k l).map f := List.eraseP_map

/-- A pop of entries that are their own keys. -/
theorem pop_id (l : List κ) : pop (fun a => a) k l = l.erase k := by
  rw [List.erase_eq_eraseP]
  unfold pop
  congr 1
  funext a
  by_cases h : a = k
  · simp [h]
  · simp [h, Ne.symm h]

/-- The keys of the entries after a pop. -/
theorem map_pop : (pop key k l).map key = (l.map key).erase k := by
  rw [← pop_id, pop_map]

/-- One key leaves with a pop. -/
theorem perm_pop (h : ∃ a ∈ l, key a = k) : (l.map key).Perm (k :: (pop key k l).map key) := by
  obtain ⟨a, ha, rfl⟩ := h
  rw [map_pop]
  exact List.perm_cons_erase (List.mem_map_of_mem ha)

theorem pop_sublist : (pop key k l).Sublist l := List.eraseP_sublist

/-! ## Operations one after the other -/

/-- A push to the end, or a pop of the first entry of a key. -/
inductive Op (κ α : Type) where
  | push (a : α)
  | pop (k : κ)

/-- What is pushed to the lane of a key, in order. -/
def pushed (key : α → κ) (k : κ) (ops : List (Op κ α)) : List α :=
  ops.flatMap fun
    | .push a => lane key k [a]
    | .pop _ => []

/-- How often the lane of a key is popped. -/
def popped (k : κ) (ops : List (Op κ α)) : Nat :=
  ops.countP fun
    | .push _ => false
    | .pop k' => k' = k

/-- The operations lead from one list to another, and each pop finds an entry of its key. -/
inductive Served (key : α → κ) (l : List α) : List (Op κ α) → List α → Prop
  | nil : Served key l [] l
  | push {ops : List (Op κ α)} {m : List α} (a : α) :
    Served key l ops m → Served key l (ops ++ [.push a]) (m ++ [a])
  | pop {ops : List (Op κ α)} {m : List α} {k : κ} :
    Served key l ops m → (∃ a ∈ m, key a = k) → Served key l (ops ++ [.pop k]) (pop key k m)

variable {ops : List (Op κ α)}

/-- **First in, first out.** A lane holds what it held and what was pushed to it, less as many
entries from its front as were popped, which are no more than there are. -/
theorem Served.lane (h : Served key l ops m) (k : κ) :
    lane key k m = (lane key k l ++ pushed key k ops).drop (popped k ops) ∧
      popped k ops ≤ (Lanes.lane key k l ++ pushed key k ops).length := by
  induction h with
  | nil => simp [pushed, popped]
  | @push ops m a _ ih =>
    obtain ⟨heq, hle⟩ := ih
    have hpops : popped k (ops ++ [.push a]) = popped k ops := by simp [popped]
    have hpush : pushed key k (ops ++ [.push a]) = pushed key k ops ++ Lanes.lane key k [a] := by
      simp [pushed]
    rw [hpops, hpush, ← List.append_assoc, lane_append, heq, List.drop_append_of_le_length hle]
    refine ⟨rfl, ?_⟩
    rw [List.length_append]
    omega
  | @pop ops m k₀ _ hex ih =>
    obtain ⟨heq, hle⟩ := ih
    have hpush : pushed key k (ops ++ [.pop k₀]) = pushed key k ops := by simp [pushed]
    rw [hpush, lane_pop]
    by_cases hk : k₀ = k
    · subst hk
      have hpops : popped k₀ (ops ++ [.pop k₀]) = popped k₀ ops + 1 := by simp [popped]
      -- the lane that is popped is not empty, so not everything was popped before
      have hne := lane_ne_nil.mpr hex
      rw [heq, ne_eq, List.drop_eq_nil_iff] at hne
      rw [if_pos rfl, hpops, heq, List.tail_drop]
      exact ⟨rfl, by omega⟩
    · have hpops : popped k (ops ++ [.pop k₀]) = popped k ops := by simp [popped, hk]
      rw [if_neg hk, hpops]
      exact ⟨heq, hle⟩

/-- The entries stay in the order in which they were pushed. -/
theorem Served.sublist (h : Served key l ops m) :
    m.Sublist (l ++ ops.filterMap fun
      | .push a => some a
      | .pop _ => none) := by
  induction h with
  | nil => simp
  | push a _ ih =>
    rw [List.filterMap_append, ← List.append_assoc]
    exact ih.append_right _
  | pop _ _ ih =>
    rw [List.filterMap_append, List.filterMap_cons_none rfl, List.filterMap_nil, List.append_nil]
    exact pop_sublist.trans ih

end Lanes
