import Mathlib.Order.Basic

/-!
# Loops

A loop is a body that goes on with a new state or ends with a result.

* `Ends body n s b`: from `s`, the loop ends with `b` in its round `n`.
* `runLoop`: the loop for a number of rounds. It has the result once the number is large enough.
* `ends_of_measure`: where each round keeps an invariant and makes a measure smaller, the loop ends,
  with what its last round makes of the invariant, and the measure bounds the rounds.
-/

namespace Loops

variable {σ β : Type} {body : σ → σ ⊕ β}

/-- From a state, the loop ends with the result in the given number of rounds. -/
inductive Ends (body : σ → σ ⊕ β) : Nat → σ → β → Prop
  | done {s : σ} {b : β} : body s = .inr b → Ends body 1 s b
  | next {n : Nat} {s t : σ} {b : β} : body s = .inl t → Ends body n t b → Ends body (n + 1) s b

/-- The result of a loop that ends within the given number of rounds. -/
def runLoop (body : σ → σ ⊕ β) : Nat → σ → Option β
  | 0, _ => none
  | fuel + 1, s =>
    match body s with
    | .inl t => runLoop body fuel t
    | .inr b => some b

/-- With enough rounds, the result is found. -/
theorem Ends.runLoop_eq {n fuel : Nat} {s : σ} {b : β} (h : Ends body n s b) (hf : n ≤ fuel) :
    runLoop body fuel s = some b := by
  induction h generalizing fuel with
  | done hs =>
    obtain ⟨fuel, rfl⟩ := Nat.exists_eq_add_of_le' hf
    rw [runLoop, hs]
  | next hs _ ih =>
    obtain ⟨fuel, rfl⟩ := Nat.exists_eq_add_of_le' (Nat.le_of_add_left_le hf)
    rw [runLoop, hs]
    exact ih (Nat.le_of_add_le_add_right hf)

/-- **Total correctness.** A loop ends whose rounds keep an invariant and make a measure smaller. -/
theorem ends_of_measure {I : σ → Prop} {m : σ → Nat} {Q : β → Prop}
    (hnext : ∀ s t, I s → body s = .inl t → I t ∧ m t < m s)
    (hdone : ∀ s b, I s → body s = .inr b → Q b) {s : σ} (hs : I s) :
    ∃ n b, n ≤ m s + 1 ∧ Ends body n s b ∧ Q b := by
  induction hm : m s using Nat.strongRecOn generalizing s with
  | _ k ih =>
    cases hb : body s with
    | inr b => exact ⟨1, b, Nat.le_add_left 1 k, .done hb, hdone s b hs hb⟩
    | inl t =>
      obtain ⟨ht, hlt⟩ := hnext s t hs hb
      obtain ⟨n, b, hn, hends, hq⟩ := ih (m t) (hm ▸ hlt) ht rfl
      exact ⟨n + 1, b, by omega, .next hb hends, hq⟩

end Loops
