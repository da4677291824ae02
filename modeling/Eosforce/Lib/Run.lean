import Mathlib.Algebra.BigOperators.Group.List.Basic
import Mathlib.Algebra.Ring.Int.Defs
import Mathlib.Algebra.Ring.Nat
import Mathlib.Data.List.Induction

/-!
# Runs of a step relation

`Run step s tr t`: the steps `tr` lead from `s` to `t`. Each entry of the trace is a step with the
states before and after it, so a statement about every step or every state of a run is one about
the members of its trace.

* `Run.inv`: an invariant of the steps holds after a run, and before and after every step of it.
* `Run.history`: the same for an invariant that speaks of the trace so far.
* `Run.pre`: what holds after each step holds before each, if it holds at the start.
* `Run.always_iff`: where each step from a good state leads to a good state exactly when the step
  meets a condition, the run stays good exactly when all its steps meet the condition.
* `Run.total`: a quantity that each step changes by a known amount changes over a run by the sum.
* `Run.falls`: the same for a quantity that each step lowers by at most a known amount.
* `Run.split_at`: the runs before and after a step of a run.
* `Run.entered`: the last step to a state with a property, when the run starts without it.
* `Run.restrict`: a run whose steps all have a property is a run of the steps that have it.
* `Run.at_most_once`: what happens only where it is not done, and is done then, happens once.
* `Run.image`, `Run.preimage`: the runs of two step relations of which one refines the other.
* `Run.project`: the steps that matter to a view of the states are a run of their own.
-/

namespace Runs

variable {σ α : Type}

/-- The steps of a trace lead from the first state to the last. -/
inductive Run (step : σ → α → σ → Prop) (s : σ) : List (σ × α × σ) → σ → Prop
  | nil : Run step s [] s
  | snoc {tr : List (σ × α × σ)} {t u : σ} {a : α} :
    Run step s tr t → step t a u → Run step s (tr ++ [(t, a, u)]) u

variable {step : σ → α → σ → Prop}

/-- An invariant holds at the end of a run and around every step of it. -/
theorem Run.inv {I : σ → Prop} {s t : σ} {tr : List (σ × α × σ)} (h : Run step s tr t) (hs : I s)
    (hstep : ∀ t a u, I t → step t a u → I u) :
    I t ∧ ∀ e ∈ tr, I e.1 ∧ step e.1 e.2.1 e.2.2 ∧ I e.2.2 := by
  induction h with
  | nil => exact ⟨hs, fun e he => by cases he⟩
  | snoc _ hst ih =>
    obtain ⟨ht, hall⟩ := ih
    have hu := hstep _ _ _ ht hst
    refine ⟨hu, fun e he => ?_⟩
    rcases List.mem_append.mp he with he | he
    · exact hall e he
    · rw [List.mem_singleton] at he
      subst he
      exact ⟨ht, hst, hu⟩

/-- An invariant of the trace and the state holds at the end of a run. -/
theorem Run.history {I : List (σ × α × σ) → σ → Prop} {s t : σ} {tr : List (σ × α × σ)}
    (h : Run step s tr t) (hs : I [] s)
    (hstep : ∀ tr t a u, I tr t → step t a u → I (tr ++ [(t, a, u)]) u) : I tr t := by
  induction h with
  | nil => exact hs
  | snoc _ hst ih => exact hstep _ _ _ _ ih hst

/-- Every step of a run is a step. -/
theorem Run.steps {s t : σ} {tr : List (σ × α × σ)} (h : Run step s tr t) :
    ∀ e ∈ tr, step e.1 e.2.1 e.2.2 := fun e he =>
  ((h.inv (I := fun _ => True) trivial fun _ _ _ _ _ => trivial).2 e he).2.1

/-- The last step of a run. -/
theorem Run.snoc_inv {s u : σ} {tr : List (σ × α × σ)} {e : σ × α × σ}
    (h : Run step s (tr ++ [e]) u) : Run step s tr e.1 ∧ step e.1 e.2.1 e.2.2 ∧ e.2.2 = u := by
  generalize hl : tr ++ [e] = l at h
  cases h with
  | nil => exact absurd hl (by simp)
  | snoc hr hst =>
    obtain ⟨rfl, he⟩ := List.append_inj' hl rfl
    obtain rfl := List.singleton_inj.mp he
    exact ⟨hr, hst, rfl⟩

/-- A run is one of the first part of its trace and one of the second. -/
theorem Run.split {s u : σ} {l l' : List (σ × α × σ)} (h : Run step s (l ++ l') u) :
    ∃ t, Run step s l t ∧ Run step t l' u := by
  induction l' using List.reverseRecOn generalizing u with
  | nil => exact ⟨u, by rwa [List.append_nil] at h, .nil⟩
  | append_singleton l' e ih =>
    rw [← List.append_assoc] at h
    obtain ⟨hr, hst, rfl⟩ := h.snoc_inv
    obtain ⟨t, h1, h2⟩ := ih hr
    exact ⟨t, h1, .snoc h2 hst⟩

/-- A run goes on where another ends. -/
theorem Run.append {s t u : σ} {l l' : List (σ × α × σ)} (h : Run step s l t)
    (h' : Run step t l' u) : Run step s (l ++ l') u := by
  induction h' with
  | nil => rwa [List.append_nil]
  | snoc _ hst ih =>
    rw [← List.append_assoc]
    exact .snoc ih hst

/-- The steps around a step of a run. -/
theorem Run.split_at {s u : σ} {l l' : List (σ × α × σ)} {e : σ × α × σ}
    (h : Run step s (l ++ e :: l') u) :
    Run step s l e.1 ∧ step e.1 e.2.1 e.2.2 ∧ Run step e.2.2 l' u := by
  rw [List.append_cons] at h
  obtain ⟨t, h1, h2⟩ := h.split
  obtain ⟨hr, hst, rfl⟩ := h1.snoc_inv
  exact ⟨hr, hst, h2⟩

/-- A run from a state without `P` to one with it has a step from which on `P` stays. -/
theorem Run.entered {P : σ → Prop} {s t : σ} {tr : List (σ × α × σ)} (h : Run step s tr t)
    (hs : ¬P s) (ht : P t) :
    ∃ l e l', tr = l ++ e :: l' ∧ ¬P e.1 ∧ P e.2.2 ∧ ∀ y ∈ l', P y.2.2 := by
  induction h with
  | nil => exact absurd ht hs
  | @snoc tr t u a _ _ ih =>
    by_cases hP : P t
    · obtain ⟨l, e, l', rfl, hpre, hpost, hall⟩ := ih hP
      refine ⟨l, e, l' ++ [(t, a, u)], by simp, hpre, hpost, fun y hy => ?_⟩
      rcases List.mem_append.mp hy with hy | hy
      · exact hall y hy
      · rw [List.mem_singleton] at hy
        subst hy
        exact ht
    · exact ⟨tr, (t, a, u), [], rfl, hP, ht, by simp⟩

/-- What holds at the start of a run and after each step holds before each step. -/
theorem Run.pre {P : σ → Prop} {s t : σ} {tr : List (σ × α × σ)} (h : Run step s tr t) (hs : P s)
    (hpost : ∀ e ∈ tr, P e.2.2) : ∀ e ∈ tr, P e.1 := by
  have key : (∀ e ∈ tr, P e.2.2) → (∀ e ∈ tr, P e.1) ∧ P t := by
    clear hpost
    induction h with
    | nil => exact fun _ => ⟨by simp, hs⟩
    | @snoc tr t u a _ _ ih =>
      intro hpost
      obtain ⟨hpre, ht⟩ := ih fun e he => hpost e (List.mem_append_left _ he)
      refine ⟨fun e he => ?_, hpost (t, a, u) (by simp)⟩
      rcases List.mem_append.mp he with he | he
      · exact hpre e he
      · rw [List.mem_singleton] at he
        subst he
        exact ht
  exact (key hpost).1

/-- If a step from a good state leads to a good state exactly when it meets condition `C`, then a
run from a good state stays good exactly when all its steps meet `C`. -/
theorem Run.always_iff {P : σ → Prop} {C : σ → α → Prop} {s t : σ} {tr : List (σ × α × σ)}
    (h : Run step s tr t) (hs : P s) (hstep : ∀ t a u, P t → step t a u → (P u ↔ C t a)) :
    (∀ e ∈ tr, P e.2.2) ↔ ∀ e ∈ tr, C e.1 e.2.1 := by
  suffices hsuf : ((∀ e ∈ tr, P e.2.2) ↔ ∀ e ∈ tr, C e.1 e.2.1) ∧ ((∀ e ∈ tr, P e.2.2) → P t) from
    hsuf.1
  induction h with
  | nil => exact ⟨by simp, fun _ => hs⟩
  | @snoc tr t u a _ hst ih =>
    obtain ⟨hiff, hlast⟩ := ih
    simp only [List.mem_append, List.mem_singleton]
    refine ⟨⟨fun hP => ?_, fun hC => ?_⟩, fun hP => hP (t, a, u) (.inr rfl)⟩
    · have hpre : ∀ e ∈ tr, P e.2.2 := fun e he => hP e (.inl he)
      rintro e (he | rfl)
      · exact hiff.mp hpre e he
      · exact (hstep t a u (hlast hpre) hst).mp (hP (t, a, u) (.inr rfl))
    · have hpre : ∀ e ∈ tr, P e.2.2 := hiff.mpr fun e he => hC e (.inl he)
      rintro e (he | rfl)
      · exact hpre e he
      · exact (hstep t a u (hlast hpre) hst).mpr (hC (t, a, u) (.inr rfl))

/-- A quantity that each step changes by `d` changes over a run by the sum of the `d`s. -/
theorem Run.total {I : σ → Prop} {q : σ → Int} {d : σ × α × σ → Int} {s t : σ}
    {tr : List (σ × α × σ)} (h : Run step s tr t) (hs : I s)
    (hI : ∀ t a u, I t → step t a u → I u)
    (hstep : ∀ t a u, I t → step t a u → q u = q t + d (t, a, u)) :
    q t = q s + (tr.map d).sum := by
  induction h with
  | nil => simp
  | snoc hr hst ih =>
    have ht := (hr.inv hs hI).1
    rw [hstep _ _ _ ht hst, ih, List.map_append, List.sum_append]
    simp only [List.map_cons, List.map_nil, List.sum_cons, List.sum_nil]
    omega

/-- A quantity that each step lowers by at most `d` falls over a run by at most the sum of the
`d`s. -/
theorem Run.falls {I : σ → Prop} {q : σ → Int} {d : σ × α × σ → Int} {s t : σ}
    {tr : List (σ × α × σ)} (h : Run step s tr t) (hs : I s)
    (hI : ∀ t a u, I t → step t a u → I u)
    (hstep : ∀ t a u, I t → step t a u → q t ≤ q u + d (t, a, u)) :
    q s ≤ q t + (tr.map d).sum := by
  induction h with
  | nil => simp
  | snoc hr hst ih =>
    have hlast := hstep _ _ _ (hr.inv hs hI).1 hst
    rw [List.map_append, List.sum_append, List.map_singleton, List.sum_singleton]
    omega

/-- A run whose steps all have property `C` is a run of the steps that have it. -/
theorem Run.restrict {C : σ × α × σ → Prop} {s t : σ} {tr : List (σ × α × σ)} (h : Run step s tr t)
    (hC : ∀ e ∈ tr, C e) : Run (fun s a t => step s a t ∧ C (s, a, t)) s tr t := by
  induction h with
  | nil => exact .nil
  | @snoc tr t u a _ hst ih =>
    exact .snoc (ih fun e he => hC e (List.mem_append_left _ he)) ⟨hst, hC (t, a, u) (by simp)⟩

/-- A run of a step relation is one of any relation that allows its steps. -/
theorem Run.mono {step' : σ → α → σ → Prop} {s t : σ} {tr : List (σ × α × σ)}
    (h : Run step s tr t) (hstep : ∀ t a u, step t a u → step' t a u) : Run step' s tr t := by
  induction h with
  | nil => exact .nil
  | snoc _ hst ih => exact .snoc ih (hstep _ _ _ hst)

/-- Something that a step does at most once, never where it is done (`D`), and after which it is
done for good, is done at most once over a run. -/
theorem Run.at_most_once {D : σ → Prop} {n : σ × α × σ → Nat} {s t : σ} {tr : List (σ × α × σ)}
    (h : Run step s tr t) (hkeep : ∀ t a u, step t a u → D t → n (t, a, u) = 0 ∧ D u)
    (hdo : ∀ t a u, step t a u → n (t, a, u) = 0 ∨ n (t, a, u) = 1 ∧ D u) :
    (tr.map n).sum ≤ 1 := by
  suffices hsuf : (tr.map n).sum = 0 ∨ (tr.map n).sum = 1 ∧ D t by omega
  induction h with
  | nil => exact .inl rfl
  | @snoc tr t u a _ hst ih =>
    rw [List.map_append, List.sum_append, List.map_singleton, List.sum_singleton]
    rcases ih with h0 | ⟨h1, hD⟩
    · rw [h0, Nat.zero_add]
      exact hdo t a u hst
    · obtain ⟨hn, hD⟩ := hkeep t a u hst hD
      exact .inr ⟨by omega, hD⟩

/-! ## Two step relations -/

section Refine

variable {ρ : Type} {step' : ρ → α → ρ → Prop} {f : σ → ρ} {I : σ → Prop}

/-- The trace of the states that the states of a trace stand for. -/
def image (f : σ → ρ) (tr : List (σ × α × σ)) : List (ρ × α × ρ) :=
  tr.map fun e => (f e.1, e.2.1, f e.2.2)

/-- If each step stands for one of the other relation, so does a run. -/
theorem Run.image {s t : σ} {tr : List (σ × α × σ)} (h : Run step s tr t) (hs : I s)
    (hstep : ∀ t a u, I t → step t a u → I u ∧ step' (f t) a (f u)) :
    I t ∧ Run step' (f s) (image f tr) (f t) := by
  induction h with
  | nil => exact ⟨hs, .nil⟩
  | snoc _ hst ih =>
    obtain ⟨hI, hr⟩ := ih
    obtain ⟨hu, hst'⟩ := hstep _ _ _ hI hst
    refine ⟨hu, ?_⟩
    unfold Runs.image
    rw [List.map_append]
    exact .snoc hr hst'

/-- If each step of the other relation stands for one, so does a run. -/
theorem Run.preimage {s : σ} {r : ρ} {tr' : List (ρ × α × ρ)} (h : Run step' (f s) tr' r) (hs : I s)
    (hstep : ∀ t a r, I t → step' (f t) a r → ∃ u, step t a u ∧ I u ∧ f u = r) :
    ∃ tr t, Run step s tr t ∧ I t ∧ f t = r ∧ Runs.image f tr = tr' := by
  induction h with
  | nil => exact ⟨[], s, .nil, hs, rfl, rfl⟩
  | @snoc tr' r r' a _ hst ih =>
    obtain ⟨tr, t, hr, hI, rfl, rfl⟩ := ih
    obtain ⟨u, hst', hu, rfl⟩ := hstep _ _ _ hI hst
    refine ⟨tr ++ [(t, a, u)], u, .snoc hr hst', hu, rfl, ?_⟩
    unfold Runs.image
    rw [List.map_append, List.map_singleton]

end Refine

/-- The labels of a trace. -/
def labels (tr : List (σ × α × σ)) : List α := tr.map fun e => e.2.1

theorem labels_append (l l' : List (σ × α × σ)) : labels (l ++ l') = labels l ++ labels l' :=
  List.map_append

theorem labels_image {ρ : Type} (f : σ → ρ) (tr : List (σ × α × σ)) :
    labels (image f tr) = labels tr := by
  unfold labels image
  rw [List.map_map]
  rfl

/-- **Projection.** If the steps of a class can be made wherever the view of the states is the same,
to the same view, and the other steps leave the view as it is, then the steps of the class are a
run of their own, which ends in the same view. -/
theorem Run.project {V : σ → σ → Prop} {C : α → Bool} {s s₀ t : σ} {tr : List (σ × α × σ)}
    (h : Run step s tr t) (hs : V s s₀)
    (hdo : ∀ t a u t₀, V t t₀ → step t a u → C a = true → ∃ u₀, step t₀ a u₀ ∧ V u u₀)
    (hskip : ∀ t a u t₀, V t t₀ → step t a u → C a = false → V u t₀) :
    ∃ tr₀ t₀, Run step s₀ tr₀ t₀ ∧ V t t₀ ∧ labels tr₀ = (labels tr).filter C := by
  induction h with
  | nil => exact ⟨[], s₀, .nil, hs, rfl⟩
  | @snoc tr t u a _ hst ih =>
    obtain ⟨tr₀, t₀, hr, hV, hl⟩ := ih
    rw [labels_append, List.filter_append, ← hl]
    cases hC : C a with
    | true =>
      obtain ⟨u₀, hst₀, hV'⟩ := hdo _ _ _ _ hV hst hC
      refine ⟨tr₀ ++ [(t₀, a, u₀)], u₀, .snoc hr hst₀, hV', ?_⟩
      simp [labels, hC]
    | false =>
      refine ⟨tr₀, t₀, hr, hskip _ _ _ _ hV hst hC, ?_⟩
      simp [labels, hC]

end Runs
