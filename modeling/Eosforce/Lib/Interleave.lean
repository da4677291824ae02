import Eosforce.Lib.Lane
import Eosforce.Lib.Run

/-!
# Interleavings

Steps that have owners, where steps of different owners may change places.

* `Swaps step owner I`: from a state of the invariant, two steps of different owners lead to the same
  state in the other order.
* `Run.postpone`: a step can wait for the steps of other owners.
* `Run.interleave`: what a run leads to depends only on the steps of each owner, in their order.
-/

namespace Runs

open Lanes

variable {σ α κ : Type} {step : σ → α → σ → Prop} {owner : α → κ} {I : σ → Prop}

/-- Two steps of different owners from a state of the invariant can change places. -/
def Swaps (step : σ → α → σ → Prop) (owner : α → κ) (I : σ → Prop) : Prop :=
  ∀ s x t y u, I s → owner x ≠ owner y → step s x t → step t y u → ∃ t', step s y t' ∧ step t' x u

/-- A step can wait for the steps of other owners. -/
theorem Run.postpone (hswap : Swaps step owner I) (hI : ∀ s x t, I s → step s x t → I t) {s t u : σ}
    {x : α} {tr : List (σ × α × σ)} (hs : I s) (hx : step s x t) (h : Run step t tr u)
    (hne : ∀ y ∈ labels tr, owner x ≠ owner y) :
    ∃ tr' t', Run step s tr' t' ∧ labels tr' = labels tr ∧ step t' x u := by
  induction h with
  | nil => exact ⟨[], s, .nil, rfl, hx⟩
  | @snoc tr u v y _ hst ih =>
    rw [labels_append] at hne
    obtain ⟨tr', t', hr, hl, hx'⟩ := ih fun z hz => hne z (List.mem_append_left _ hz)
    have hy : owner x ≠ owner y := hne y (by simp [labels])
    obtain ⟨u', hst', hx''⟩ := hswap _ _ _ _ _ (hr.inv hs hI).1 hy hx' hst
    refine ⟨tr' ++ [(t', y, u')], u', .snoc hr hst', ?_, hx''⟩
    rw [labels_append, labels_append, hl]
    rfl

variable [DecidableEq κ]

/-- The last entry of a lane stands before entries of other keys only. -/
theorem lane_eq_snoc {key : α → κ} {k : κ} {l m : List α} {x : α} (h : lane key k l = m ++ [x]) :
    ∃ l₁ l₂, l = l₁ ++ x :: l₂ ∧ ∀ y ∈ l₂, key y ≠ k := by
  obtain ⟨l₁, l₂, rfl, -, h₂⟩ := List.filter_eq_append_iff.mp h
  obtain ⟨l₃, l₄, rfl, -, -, hlast⟩ := List.filter_eq_cons_iff.mp h₂
  exact ⟨l₁ ++ l₃, l₄, by simp, by simpa using List.filter_eq_nil_iff.mp hlast⟩

/-- **Interleavings.** If steps of different owners can change places, then every order of the steps of
a run that keeps the order of each owner's steps is one of a run to the same state. -/
theorem Run.interleave (hswap : Swaps step owner I) (hI : ∀ s x t, I s → step s x t → I t) {s t : σ}
    {tr : List (σ × α × σ)} (hs : I s) (h : Run step s tr t) {l : List α}
    (hl : ∀ k, lane owner k l = lane owner k (labels tr)) :
    ∃ tr', Run step s tr' t ∧ labels tr' = l := by
  induction l using List.reverseRecOn generalizing tr t with
  | nil =>
    cases h with
    | nil => exact ⟨[], .nil, rfl⟩
    | @snoc tr u t x _ _ =>
      have hx := hl (owner x)
      rw [labels_append, lane_append, lane_nil] at hx
      simp [labels, lane] at hx
  | append_singleton l x ih =>
    have hx := hl (owner x)
    rw [lane_append, lane_singleton, if_pos rfl] at hx
    obtain ⟨l₁, l₂, hsplit, hafter⟩ := lane_eq_snoc hx.symm
    -- the trace around the last step of the owner of `x`
    obtain ⟨tr₁, tr₂, rfl, h₁, h₂⟩ := List.map_eq_append_iff.mp hsplit
    obtain ⟨e, tr₃, rfl, rfl, h₃⟩ := List.map_eq_cons_iff.mp h₂
    obtain ⟨hr₁, hst, hr₂⟩ := h.split_at
    obtain ⟨tr₄, v, hr₃, hl₃, hst'⟩ := Run.postpone hswap hI (hr₁.inv hs hI).1 hst hr₂ fun y hy =>
      Ne.symm (hafter y (h₃ ▸ hy))
    have hrest : ∀ k, lane owner k l = lane owner k (labels (tr₁ ++ tr₄)) := by
      intro k
      have hk := hl k
      rw [hsplit, lane_append, lane_append, lane_singleton] at hk
      rw [labels_append, hl₃, lane_append, show labels tr₁ = l₁ from h₁,
        show labels tr₃ = l₂ from h₃]
      by_cases he : owner e.2.1 = k
      · have hnil : lane owner k l₂ = [] :=
          List.filter_eq_nil_iff.mpr fun y hy => by simpa [← he] using hafter y hy
        rw [if_pos he, show lane owner k (e.2.1 :: l₂) = e.2.1 :: lane owner k l₂ from
          List.filter_cons_of_pos (by simpa using he), hnil] at hk
        rw [hnil, List.append_nil]
        exact List.append_cancel_right hk
      · rw [if_neg he, List.append_nil, show lane owner k (e.2.1 :: l₂) = lane owner k l₂ from
          List.filter_cons_of_neg (by simpa using he)] at hk
        exact hk
    obtain ⟨tr', hr, hlabels⟩ := ih (hr₁.append hr₃) hrest
    refine ⟨tr' ++ [(v, e.2.1, t)], .snoc hr hst', ?_⟩
    rw [labels_append, hlabels]
    rfl

end Runs
