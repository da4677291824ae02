import Eosforce.System.Exec

/-!
# What the punishment protocol leaves alone

* `PunishFrame`, `exec_punishFrame`: what does not read the tables that the actions of the protocol
  write is the same after them.
* `monitorevise_cases`, `monitorevise_inv`: what `monitorevise` does, and what holds after it where
  the revision of each row keeps it.
-/

namespace Eosforce.System

open Fallible Keyed

variable {env : Env} {s s' : State} {α : Type} {f : State → α}

/-- The actions of the blocks and of the punishment protocol. -/
def Action.disciplines : Action → Bool
  | .onblock .. | .removebp .. | .punishbp .. | .approvebp .. | .bailpunish .. | .monitorevise ..
  | .removepunish .. | .bpclaim .. | .updateconfig .. => true
  | _ => false

/-- `f` does not read what the actions of the punishment protocol write. -/
def PunishFrame (f : State → α) : Prop :=
  ∀ t blackpro bpmonitor drainblocks punishbps systemconfig,
    f { t with blackpro, bpmonitor, drainblocks, punishbps, systemconfig } = f t

/-- One round of the loop of `monitorevise`. -/
def reviseRow (s : State) (row : Name × BpMonitor) : State :=
  if row.2.totalDrainBlock > wrongDrainBlock then reviseMonitor s row.1 row.2 else s

/-- `monitorevise` revises the named bp, if its count is wrong, or else loops through all bps. -/
theorem monitorevise_cases {b : Name} (h : monitorevise env s b = .ok s') :
    (∃ m, s.bpmonitor.find b = some m ∧ wrongDrainBlock < m.totalDrainBlock ∧
        s' = reviseMonitor s b m) ∨
      s' = s.bpmonitor.rows.foldl reviseRow s := by
  simp only [monitorevise, bind_eq_ok] at h
  obtain ⟨_, -, h⟩ := h
  split at h
  · rename_i m hm
    cases h
    split
    · rename_i hw
      exact .inl ⟨m, hm, hw, rfl⟩
    · exact .inr rfl
  · cases h
    exact .inr rfl

/-- A property that the revision of a monitor row keeps is kept by `monitorevise`. -/
theorem monitorevise_inv {P : State → Prop} {b : Name} (h : monitorevise env s b = .ok s')
    (hs : P s) (hrow : ∀ t k m, s.bpmonitor.find k = some m → P t → P (reviseMonitor t k m)) :
    P s' := by
  rcases monitorevise_cases h with ⟨m, hm, -, rfl⟩ | rfl
  · exact hrow s b m hm hs
  · apply List.foldlRecOn (motive := P) _ _ hs
    intro t ht row hmem
    unfold reviseRow
    split
    · exact hrow t _ _ (Table.mem_rows.mp hmem) ht
    · exact ht

theorem approvebp_frame (hf : PunishFrame f) {b approver : Name} {fx : List Effect}
    (h : approvebp env s b approver = .ok (s', fx)) : f s' = f s := by
  simp only [approvebp, bind_eq_ok] at h
  obtain ⟨_, -, _, -, _, -, p, -, _, -, _, -, h⟩ := h
  split at h
  · cases h
    exact hf s _ _ _ _ _
  · simp only [execPunishBp, bind_eq_ok] at h
    obtain ⟨_, -, _, -, _, -, h⟩ := h
    split at h
    · cases h
      exact hf s _ _ _ _ _
    · simp only [bind_eq_ok, pure_eq_ok, Prod.mk.injEq] at h
      obtain ⟨_, -, _, -, _, -, rfl, -⟩ := h
      exact hf s _ _ _ _ _

theorem monitorevise_frame (hf : PunishFrame f) {b : Name} (h : monitorevise env s b = .ok s') :
    f s' = f s := by
  apply monitorevise_inv (P := fun t => f t = f s) h rfl
  intro t k m _ ht
  rw [← ht]
  exact hf t _ _ _ _ _

/-- What does not read what the actions of the punishment protocol write is the same after them. -/
theorem exec_punishFrame (hf : PunishFrame f) {a : Action} {fx : List Effect}
    (ha : a.disciplines = true) (hblock : ∀ b v, a ≠ .onblock b v) (hclaim : ∀ b, a ≠ .bpclaim b)
    (h : exec env s a = .ok (s', fx)) : f s' = f s := by
  cases a <;> simp only [exec, silent_eq_ok] at h
  case onblock b v => exact absurd rfl (hblock b v)
  case bpclaim b => exact absurd rfl (hclaim b)
  case approvebp => exact approvebp_frame hf h
  case monitorevise => exact monitorevise_frame hf h.1
  case removebp =>
    simp only [removebp, bind_eq_ok, pure_eq_ok] at h
    obtain ⟨⟨_, -, rfl⟩, -⟩ := h
    exact hf s _ _ _ _ _
  case punishbp =>
    simp only [punishbp, bind_eq_ok, pure_eq_ok] at h
    obtain ⟨⟨_, -, _, -, _, -, _, -, _, -, _, -, rfl⟩, -⟩ := h
    exact hf s _ _ _ _ _
  case bailpunish =>
    simp only [bailpunish, bind_eq_ok, pure_eq_ok] at h
    obtain ⟨⟨_, -, _, -, _, -, rfl⟩, -⟩ := h
    exact hf s _ _ _ _ _
  case removepunish =>
    simp only [removepunish, bind_eq_ok, pure_eq_ok] at h
    obtain ⟨⟨_, -, _, -, _, -, _, -, _, -, rfl⟩, -⟩ := h
    exact hf s _ _ _ _ _
  case updateconfig =>
    simp only [updateconfig, bind_eq_ok, pure_eq_ok] at h
    obtain ⟨⟨_, -, rfl⟩, -⟩ := h
    exact hf s _ _ _ _ _
  all_goals cases ha

end Eosforce.System
