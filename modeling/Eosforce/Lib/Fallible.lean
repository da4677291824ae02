/-!
# Fallible computations

Rules for `Except`: what a successful run of a bind, a check or a loop says about its parts.

* `bind_eq_ok`: a bind succeeds when both parts do. With `check_eq_ok` and `pure_eq_ok`, a `simp`
  turns "this `do` block returned `b`" into the conditions it checked and the values it read.
* `bind_eq_error`, `check_eq_error`, `fetch_eq_error`: the same for the text of a failure.
* `foldlM_rest`: the loop rule of `List.foldlM`, for an invariant that may speak of the rest of the
  list; `foldlM_inv` is the case of a property of the state.
* `foldlM_ok_rest`: a loop succeeds when its body does wherever the invariant holds.
* `filterM_ok`: a filter by a test that does not fail.
* `Rel R`: two computations that fail with one error or return related values, with the rules of
  its binds.
-/

namespace Fallible

variable {ε α β σ : Type}

/-- Fails with `msg` unless `p` holds. -/
def check (p : Prop) [Decidable p] (msg : ε) : Except ε Unit :=
  if p then .ok () else .error msg

theorem check_eq_ok {p : Prop} [Decidable p] {msg : ε} {u : Unit} :
    check p msg = .ok u ↔ p := by
  unfold check; split <;> simp_all

theorem bind_eq_ok {x : Except ε α} {f : α → Except ε β} {b : β} :
    (x >>= f) = .ok b ↔ ∃ a, x = .ok a ∧ f a = .ok b := by
  cases x with
  | error e => simp [bind, Except.bind]
  | ok a => simp [bind, Except.bind]

theorem pure_eq_ok {a b : α} : (pure a : Except ε α) = .ok b ↔ a = b := by
  simp [pure, Except.pure]

/-- A bind fails where its first part does, or its second after it. -/
theorem bind_eq_error {x : Except ε α} {f : α → Except ε β} {e : ε} :
    (x >>= f) = .error e ↔ x = .error e ∨ ∃ a, x = .ok a ∧ f a = .error e := by
  cases x with
  | error e => simp [bind, Except.bind]
  | ok a => simp [bind, Except.bind]

theorem check_eq_error {p : Prop} [Decidable p] {msg e : ε} :
    check p msg = .error e ↔ ¬p ∧ msg = e := by
  unfold check; split <;> simp_all

theorem pure_eq_error {a : α} {e : ε} : (pure a : Except ε α) = .error e ↔ False := by
  simp [pure, Except.pure]

theorem ok_bind {a : α} {f : α → Except ε β} : ((.ok a : Except ε α) >>= f) = f a := rfl

theorem ite_eq_ok {p : Prop} [Decidable p] {x y : Except ε α} {a : α} :
    (if p then x else y) = .ok a ↔ (p ∧ x = .ok a) ∨ (¬p ∧ y = .ok a) := by
  split <;> simp_all

/-- The value of an optional row, or a failure. -/
def fetch (o : Option α) (msg : ε) : Except ε α :=
  match o with
  | some a => .ok a
  | none => .error msg

theorem fetch_eq_ok {o : Option α} {msg : ε} {a : α} : fetch o msg = .ok a ↔ o = some a := by
  cases o <;> simp [fetch]

theorem fetch_eq_error {o : Option α} {msg e : ε} :
    fetch o msg = .error e ↔ o = none ∧ msg = e := by
  cases o <;> simp [fetch]

/-- **Loop rule.** An invariant of the rest of the list and the state, kept by each iteration,
holds of the end of a loop that succeeds. -/
theorem foldlM_rest {f : σ → α → Except ε σ} {I : List α → σ → Prop} {l : List α} {s s' : σ}
    (hs : I l s) (hstep : ∀ a l t t', I (a :: l) t → f t a = .ok t' → I l t')
    (h : l.foldlM f s = .ok s') : I [] s' := by
  induction l generalizing s with
  | nil => cases h; exact hs
  | cons a l ih =>
    rw [List.foldlM_cons, bind_eq_ok] at h
    obtain ⟨t, ht, h⟩ := h
    exact ih (hstep a l s t hs ht) h

/-- A loop whose body succeeds wherever an invariant of the rest of the list and the state holds,
and keeps the invariant, succeeds. -/
theorem foldlM_ok_rest {f : σ → α → Except ε σ} {I : List α → σ → Prop} {l : List α} {s : σ}
    (hs : I l s) (hstep : ∀ a l t, I (a :: l) t → ∃ t', f t a = .ok t' ∧ I l t') :
    ∃ s', l.foldlM f s = .ok s' ∧ I [] s' := by
  induction l generalizing s with
  | nil => exact ⟨s, rfl, hs⟩
  | cons a l ih =>
    obtain ⟨t, ht, hI⟩ := hstep a l s hs
    obtain ⟨s', h', hI'⟩ := ih hI
    exact ⟨s', by rw [List.foldlM_cons, ht]; exact h', hI'⟩

/-- A property that each iteration keeps holds after a loop that succeeds. -/
theorem foldlM_inv {f : σ → α → Except ε σ} {P : σ → Prop} {l : List α} {s s' : σ}
    (hs : P s) (hstep : ∀ t a t', a ∈ l → P t → f t a = .ok t' → P t')
    (h : l.foldlM f s = .ok s') : P s' :=
  (foldlM_rest (I := fun rest t => (∀ a ∈ rest, a ∈ l) ∧ P t) ⟨fun _ ha => ha, hs⟩
    (fun a rest t t' hI ht => ⟨fun b hb => hI.1 b (by simp [hb]),
      hstep t a t' (hI.1 a (by simp)) hI.2 ht⟩) h).2

/-- A filter whose test succeeds on every element is the filter by its results. -/
theorem filterM_ok {p : α → Except ε Bool} {f : α → Bool} (h : ∀ a, p a = .ok (f a)) (l : List α) :
    l.filterM p = .ok (l.filter f) := by
  have key : ∀ acc, l.filterAuxM p acc = .ok ((l.filter f).reverse ++ acc) := by
    induction l with
    | nil => exact fun acc => rfl
    | cons a l ih =>
      intro acc
      unfold List.filterAuxM
      rw [h a, ok_bind, ih, List.filter_cons]
      cases f a <;> simp
  unfold List.filterM
  rw [key, ok_bind]
  simp [pure, Except.pure]

/-- A filter that succeeds on a nonempty list has tested its first element. -/
theorem filterM_cons_ok {p : α → Except ε Bool} {a : α} {l r : List α}
    (h : (a :: l).filterM p = .ok r) : ∃ b, p a = .ok b := by
  unfold List.filterM List.filterAuxM at h
  rw [bind_eq_ok] at h
  obtain ⟨_, h, -⟩ := h
  rw [bind_eq_ok] at h
  obtain ⟨b, hb, -⟩ := h
  exact ⟨b, hb⟩

/-! ## Related computations -/

/-- Two computations that fail with one error, or return values that are related by `R`. -/
inductive Rel {α' : Type} (R : α → α' → Prop) : Except ε α → Except ε α' → Prop
  | ok {a : α} {a' : α'} : R a a' → Rel R (.ok a) (.ok a')
  | error (e : ε) : Rel R (.error e) (.error e)

section Rel

variable {α' β' : Type} {R : α → α' → Prop} {S : β → β' → Prop} {f : α → Except ε β}

theorem Rel.pure {a : α} {a' : α'} (h : R a a') :
    Rel R (Pure.pure a : Except ε α) (Pure.pure a') := .ok h

theorem Rel.bind {x : Except ε α} {x' : Except ε α'} {f' : α' → Except ε β'} (h : Rel R x x')
    (hf : ∀ a a', R a a' → Rel S (f a) (f' a')) : Rel S (x >>= f) (x' >>= f') := by
  cases h with
  | ok hR => exact hf _ _ hR
  | error e => exact .error e

/-- Related computations with the same first part. -/
theorem Rel.bind_same {x : Except ε α} {f' : α → Except ε β'}
    (hf : ∀ a, x = .ok a → Rel S (f a) (f' a)) : Rel S (x >>= f) (x >>= f') := by
  cases x with
  | ok a => exact hf a rfl
  | error e => exact .error e

/-- Related computations that check the same with one message. -/
theorem Rel.check {p p' : Prop} [Decidable p] [Decidable p'] {msg : ε} {f : Unit → Except ε β}
    {f' : Unit → Except ε β'} (hp : p ↔ p') (hf : p → Rel S (f ()) (f' ())) :
    Rel S (Fallible.check p msg >>= f) (Fallible.check p' msg >>= f') := by
  unfold Fallible.check
  by_cases h : p
  · rw [if_pos h, if_pos (hp.mp h)]
    exact hf h
  · rw [if_neg h, if_neg (mt hp.mpr h)]
    exact .error msg

/-- What the first of related computations returns, the second returns too. -/
theorem Rel.of_ok {x : Except ε α} {x' : Except ε α'} {a : α} (h : Rel R x x') (hx : x = .ok a) :
    ∃ a', x' = .ok a' ∧ R a a' := by
  cases h with
  | ok hR =>
    cases hx
    exact ⟨_, rfl, hR⟩
  | error e => cases hx

theorem Rel.of_ok' {x : Except ε α} {x' : Except ε α'} {a' : α'} (h : Rel R x x')
    (hx : x' = .ok a') : ∃ a, x = .ok a ∧ R a a' := by
  cases h with
  | ok hR =>
    cases hx
    exact ⟨_, rfl, hR⟩
  | error e => cases hx

end Rel

end Fallible
